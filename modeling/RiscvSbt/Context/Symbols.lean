import RiscvSbt.Context.Callees
import RiscvSbt.Context.Moves

/-! Functions that symbols delimit.

A function goes from its symbol to the next one, so that the functions of a section lie side by
side from the first symbol to the end of the section. A symbol at the address of the next one
gets a function without words. -/
namespace RiscvSbt.Context
open Library Block State

/-- Where the first function or global symbol is; the end of the section if there is none. -/
def Section.first (sec : Section) : Nat :=
  match sec.symbols.find? Symbol.isValid with
  | some sym => sym.addr
  | none => sec.size

/-- The ranges lie side by side from an address up to the end. -/
def Tiles (size : Nat) : Nat → List (Nat × Nat) → Prop
  | a, [] => a = size
  | a, (x, y) :: rest => x = a ∧ Tiles size y rest

/-- The ranges to come: the rest of the function in progress, and the functions behind it. -/
def Config.left (c : Config) : List (Nat × Nat) :=
  (match c.loop with | some l => [(l.addr, l.stop)] | none => []) ++
    c.todo.map fun F => (F.start, F.stop)

/-- Where the scan gives every symbol a function of its own. -/
structure Scans (p : Program) (c : Config) : Prop where
  apart : Apart p c
  unfilled : Unfilled c
  /-- The function that is switched to is in the section. -/
  here : ∀ l o next, c.loop = some l → Cuts c.s l → c.s.funcByAddr.get? l.addr = some o →
    c.s.objs o = some next → next.sec = c.s.sec
  /-- A function has words, and nothing has made `main` known before it is translated. -/
  enter : ∀ F, c.loop = none → c.todo.head? = some F →
    F.start < F.stop ∧ (F.name = "main" → c.s.module.get? "main" = none)

/-- The sections that have been begun have been translated up to where the loop is. -/
structure Scanned (p : Program) (c : Config) : Prop where
  sec : c.next = c.s.sec + 1 ∨ (c.next = 0 ∧ c.loop = none ∧ c.todo = [])
  cur : ∀ l obj, c.loop = some l → c.s.objs c.s.cur = some obj → obj.sec = c.s.sec
  le : ∀ l, c.loop = some l → l.addr ≤ l.stop
  stops : ∀ r ∈ c.left, r.2 % 4 = 0
  later : ∀ k, c.next ≤ k → c.s.wordsOf k = []
  words : ∀ k sec, p.sections[k]? = some sec → sec.isText → k < c.next →
    ∃ n, c.s.wordsOf k = List.range' sec.first n 4 ∧
      Tiles sec.size (sec.first + 4 * n) (if k + 1 = c.next then c.left else [])
  symbols : ∀ k sec, p.sections[k]? = some sec → sec.isText → k < c.next →
    ∀ sym ∈ sec.symbols, sym.isValid →
      (k + 1 = c.next ∧ ∃ F ∈ c.todo, F.name = sym.name ∧ F.start = sym.addr) ∨
      (k + 1 = c.next ∧ ∃ l, c.loop = some l ∧ l.st = sym.addr ∧ l.st < l.stop ∧
        c.s.module.get? sym.name = some c.s.blk.func.f) ∨
      ∃ f, c.s.module.get? sym.name = some f ∧ Held p k sym.addr f c

variable {p : Program} {sec : Section} {c c' : Config} {l : Loop} {F : Func} {todo : List Func}
  {size a : Nat}

/-! ### Ranges -/

theorem delimit_tiles (syms : List Symbol) (sym : Symbol) :
    Tiles size sym.addr ((delimit size (some sym) syms).map fun F => (F.start, F.stop)) := by
  induction syms generalizing sym with
  | nil => exact ⟨rfl, rfl⟩
  | cons next syms ih =>
    unfold delimit
    split
    · exact ⟨rfl, ih next⟩
    · exact ih sym

theorem funcs_tiles (htext : sec.isText) :
    Tiles sec.size sec.first (sec.funcs.map fun F => (F.start, F.stop)) := by
  unfold Section.funcs Section.first
  rw [if_pos htext]
  generalize sec.symbols = syms
  induction syms with
  | nil => rfl
  | cons next syms ih =>
    unfold delimit
    by_cases hv : next.isValid = true
    · rw [if_pos hv, List.find?_cons_of_pos hv]
      exact delimit_tiles syms next
    · rw [if_neg hv, List.find?_cons_of_neg hv]
      exact ih

/-- A function ends at a symbol, or with the section. -/
theorem delimit_stop (hsize : size % 4 = 0) (syms : List Symbol)
    (halign : ∀ sym ∈ syms, sym.isValid → sym.addr % 4 = 0) (cur : Option Symbol) :
    ∀ F ∈ delimit size cur syms, F.stop % 4 = 0 := by
  induction syms generalizing cur with
  | nil =>
    intro F hF
    cases cur with
    | none => cases hF
    | some sym =>
      obtain rfl := List.mem_singleton.mp hF
      exact hsize
  | cons next syms ih =>
    intro F hF
    have hrest := ih fun sym hsym => halign sym (List.mem_cons_of_mem _ hsym)
    cases cur with
    | none => exact hrest _ F hF
    | some sym =>
      unfold delimit at hF
      split at hF
      next hv =>
        rcases List.mem_cons.mp hF with rfl | hF
        · exact halign next List.mem_cons_self hv
        · exact hrest _ F hF
      next => exact hrest _ F hF

theorem funcs_stop (hp : p.Aligned) (hmem : sec ∈ p.sections)
    (hsize : sec.isText → sec.size % 4 = 0) : ∀ F ∈ sec.funcs, F.stop % 4 = 0 := by
  intro F hF
  unfold Section.funcs at hF
  split at hF
  next htext => exact delimit_stop (hsize htext) sec.symbols (hp sec hmem) none F hF
  next => cases hF

/-- Every symbol delimits a function. -/
theorem delimit_mem (syms : List Symbol) (cur : Option Symbol) {sym : Symbol}
    (hsym : cur = some sym ∨ sym ∈ syms ∧ sym.isValid = true) :
    ∃ F ∈ delimit size cur syms, F.name = sym.name ∧ F.start = sym.addr := by
  induction syms generalizing cur with
  | nil =>
    rcases hsym with rfl | ⟨hmem, -⟩
    · exact ⟨_, List.mem_singleton.mpr rfl, rfl, rfl⟩
    · cases hmem
  | cons next syms ih =>
    cases cur with
    | none =>
      obtain ⟨hmem, hv⟩ := hsym.resolve_left nofun
      unfold delimit
      rcases List.mem_cons.mp hmem with rfl | hmem
      · rw [if_pos hv]
        exact ih _ (.inl rfl)
      · exact ih _ (.inr ⟨hmem, hv⟩)
    | some first =>
      unfold delimit
      rcases hsym with heq | ⟨hmem, hv⟩
      · obtain rfl := Option.some.inj heq
        split
        · exact ⟨_, List.mem_cons_self, rfl, rfl⟩
        · exact ih _ (.inl rfl)
      · split
        next hnext =>
          obtain ⟨F, hF, h⟩ := ih (some next) ((List.mem_cons.mp hmem).imp
            (fun heq => by rw [heq]) fun hmem => ⟨hmem, hv⟩)
          exact ⟨F, List.mem_cons_of_mem _ hF, h⟩
        next hnext =>
          rcases List.mem_cons.mp hmem with rfl | hmem
          · exact absurd hv hnext
          · exact ih _ (.inr ⟨hmem, hv⟩)

theorem funcs_mem {sym : Symbol} (htext : sec.isText) (hsym : sym ∈ sec.symbols)
    (hv : sym.isValid = true) : ∃ F ∈ sec.funcs, F.name = sym.name ∧ F.start = sym.addr := by
  unfold Section.funcs
  rw [if_pos htext]
  exact delimit_mem sec.symbols none (.inr ⟨hsym, hv⟩)

theorem left_loop (hl : c.loop = some l) :
    c.left = (l.addr, l.stop) :: c.todo.map fun F => (F.start, F.stop) := by
  unfold Config.left
  rw [hl]
  rfl

theorem left_idle (hl : c.loop = none) : c.left = c.todo.map fun F => (F.start, F.stop) := by
  unfold Config.left
  rw [hl]
  rfl

/-! ### Steps -/

namespace Scanned

theorem init (pending : Map Nat PendingReloc) (sections : String → List Constant) :
    Scanned p (Config.init pending sections) :=
  ⟨.inr ⟨rfl, rfl, rfl⟩, fun _ _ hl => (nomatch hl), fun _ hl => (nomatch hl),
    fun _ hr => (nomatch hr), fun _ _ => rfl, fun _ _ _ _ hk => (nomatch hk),
      fun _ _ _ _ hk => (nomatch hk)⟩

/-- A section is being translated. -/
theorem opened (h : Scanned p c) (hl : c.loop = some l) : c.next = c.s.sec + 1 :=
  h.sec.resolve_right fun ⟨_, hn, _⟩ => by
    rw [hl] at hn
    cases hn

/-- An instruction. -/
theorem turn (h : Scanned p c) (hf : Fresh p c) (hl : c.loop = some l) (hlt : l.addr < l.stop)
    (hstay : ¬ Cuts c.s l) (hl' : c'.loop = some {l with addr := l.addr + 4})
    (hs : c.step p = .ok c') (hstep : Step p c c') : Scanned p c' := by
  obtain ⟨htodo, hnext, hsec, hmod, -⟩ := step_loop hf.maps hl hs
  obtain ⟨obj, hobj, hwords, hcur⟩ := step_turn hf.maps hl hlt hstay hs
  have hopen := h.opened hl
  have hobjsec := h.cur l obj hl hobj
  have hof : ∀ k, c'.s.wordsOf k = c.s.wordsOf k ++ if obj.sec = k then [l.addr] else [] :=
    fun k => wordsOf_append hwords
  have hstops := h.stops
  rw [left_loop hl] at hstops
  refine ⟨.inl (by rw [hnext, hsec, hopen]), fun l₂ obj' _ ho => ?_, fun l₂ hl₂ => ?_, ?_,
    fun k hk => ?_, fun k sec hk htext hlt' => ?_, fun k sec hk htext hlt' sym hsym hv => ?_⟩
  · rw [hcur obj' ho, hsec, hobjsec]
  · obtain rfl := Option.some.inj (hl'.symm.trans hl₂)
    obtain ⟨body, s₀, f, pr, hr⟩ := hf.run l hl
    obtain ⟨main, key, hinv, -⟩ := hr.inv
    have haddr := hinv.aligned
    have hstop : l.stop % 4 = 0 := hstops _ List.mem_cons_self
    show l.addr + 4 ≤ l.stop
    omega
  · rw [left_loop hl', htodo]
    exact List.forall_mem_cons.mpr (List.forall_mem_cons.mp hstops)
  · rw [hof, if_neg (by omega), h.later k (by omega)]
    rfl
  · obtain ⟨n, hn, htiles⟩ := h.words k sec hk htext (by omega)
    rw [hof, hn, hnext]
    by_cases hcurrent : k + 1 = c.next
    · rw [if_pos hcurrent, left_loop hl] at htiles
      obtain ⟨haddr, htiles⟩ := htiles
      refine ⟨n + 1, ?_, ?_⟩
      · rw [if_pos (by omega), List.range'_concat, haddr]
      · rw [if_pos hcurrent, left_loop hl', htodo]
        exact ⟨show l.addr + 4 = _ by omega, htiles⟩
    · rw [if_neg hcurrent] at htiles
      refine ⟨n, ?_, ?_⟩
      · rw [if_neg (by omega), List.append_nil]
      · rw [if_neg hcurrent]
        exact htiles
  · rw [hnext, htodo]
    rcases h.symbols k sec hk htext (by omega) sym hsym hv with hp | ⟨hk', l₁,
      hl₁, hst, hrange, hm⟩ |
      ⟨f, hm, hh⟩
    · exact .inl hp
    · obtain rfl := Option.some.inj (hl.symm.trans hl₁)
      refine .inr (.inl ⟨hk', _, hl', hst, hrange, ?_⟩)
      rw [hstep.turn_fn hf hl hl']
      exact hmod _ _ hm
    · exact .inr (.inr ⟨f, hmod _ _ hm, hh.step hstep⟩)

/-- The function in progress has ended, and holds the code of its symbol. -/
theorem ended (h : Scanned p c) (hf : Fresh p c) (hvac : Vacated p c) (hl : c.loop = some l)
    (hend : Cuts c.s l ∨ l.stop ≤ l.addr) (hs : c.step p = .ok c') (hstep : Step p c c') {k : Nat}
    (hk : p.sections[k]? = some sec) (htext : sec.isText) (hlt : k < c.next) {sym : Symbol}
    (hsym : sym ∈ sec.symbols) (hv : sym.isValid) :
    (k + 1 = c.next ∧ ∃ F ∈ c.todo, F.name = sym.name ∧ F.start = sym.addr) ∨
      ∃ f, c'.s.module.get? sym.name = some f ∧ Held p k sym.addr f c' := by
  obtain ⟨-, -, -, hmod, -⟩ := step_loop hf.maps hl hs
  rcases h.symbols k sec hk htext hlt sym hsym hv with hp | ⟨hk', l₁, hl₁, hst, hrange, hm⟩ |
    ⟨f, hm, hh⟩
  · exact .inl hp
  · obtain rfl := Option.some.inj (hl.symm.trans hl₁)
    obtain ⟨body, s₀, f, pr, hr⟩ := hf.run l hl
    have hle := hr.le
    have hbegun : l.st < l.addr := by
      rcases hend with ⟨-, hne, -⟩ | hge
      · omega
      · omega
    obtain ⟨obj, hobj⟩ := step_live hl hs
    have hheld := hvac.held hstep hl hobj hend hbegun
    have hopen := h.opened hl
    obtain rfl : c.s.sec = k := by omega
    rw [h.cur l obj hl hobj, hst] at hheld
    exact .inr ⟨_, hmod _ _ hm, hheld⟩
  · exact .inr ⟨f, hmod _ _ hm, hh.step hstep⟩

/-- The end of a function. -/
theorem leave (h : Scanned p c) (hf : Fresh p c) (hvac : Vacated p c) (hl : c.loop = some l)
    (hge : l.stop ≤ l.addr) (hl' : c'.loop = none) (hwords : c'.s.words = c.s.words)
    (hs : c.step p = .ok c') (hstep : Step p c c') : Scanned p c' := by
  obtain ⟨htodo, hnext, hsec, hmod, -⟩ := step_loop hf.maps hl hs
  have hof : ∀ k, c'.s.wordsOf k = c.s.wordsOf k := fun k => wordsOf_eq hwords
  have hle := h.le l hl
  have hstops := h.stops
  rw [left_loop hl] at hstops
  refine ⟨.inl (by rw [hnext, hsec, h.opened hl]), fun l₂ obj' hl₂ _ => ?_, fun l₂ hl₂ => ?_, ?_,
    fun k hk => ?_, fun k sec hk htext hlt => ?_, fun k sec hk htext hlt sym hsym hv => ?_⟩
  · rw [hl'] at hl₂
    cases hl₂
  · rw [hl'] at hl₂
    cases hl₂
  · rw [left_idle hl', htodo]
    exact (List.forall_mem_cons.mp hstops).2
  · rw [hof]
    exact h.later k (hnext ▸ hk)
  · obtain ⟨n, hn, htiles⟩ := h.words k sec hk htext (hnext ▸ hlt)
    refine ⟨n, (hof k).trans hn, ?_⟩
    rw [hnext]
    by_cases hcurrent : k + 1 = c.next
    · rw [if_pos hcurrent, left_loop hl] at htiles
      obtain ⟨haddr, htiles⟩ := htiles
      rw [if_pos hcurrent, left_idle hl', htodo, ← haddr]
      rw [show l.stop = l.addr by omega] at htiles
      exact htiles
    · rw [if_neg hcurrent] at htiles ⊢
      exact htiles
  · rw [hnext, htodo]
    rcases h.ended hf hvac hl (.inr hge) hs hstep hk htext (hnext ▸ hlt) hsym hv with hp | hh
    · exact .inl hp
    · exact .inr (.inr hh)

/-- A switch to the function that starts here. -/
theorem cut (h : Scanned p c) (hf : Fresh p c) (hvac : Vacated p c) (hgood : Scans p c)
    (hl : c.loop = some l) (hcuts : Cuts c.s l) {l' : Loop} (hl' : c'.loop = some l')
    (haddr : l'.addr = l.addr) (hwords : c'.s.words = c.s.words)
    (hs : c.step p = .ok c') (hstep : Step p c c') : Scanned p c' := by
  obtain ⟨htodo, hnext, hsec, hmod, hstop⟩ := step_loop hf.maps hl hs
  obtain ⟨hget, hcur⟩ := step_cut hl hcuts hs
  have hof : ∀ k, c'.s.wordsOf k = c.s.wordsOf k := fun k => wordsOf_eq hwords
  have hleft : c'.left = c.left := by
    rw [left_loop hl', left_loop hl, haddr, hstop l' hl', htodo]
  refine ⟨.inl (by rw [hnext, hsec, h.opened hl]), fun l₂ obj' _ ho => ?_, fun l₂ hl₂ => ?_,
    hleft ▸ h.stops, fun k hk => ?_, fun k sec hk htext hlt => ?_,
    fun k sec hk htext hlt sym hsym hv => ?_⟩
  · obtain ⟨obj, hobj, heq⟩ := hcur obj' ho
    rw [heq, hsec]
    exact hgood.here l _ obj hl hcuts hget hobj
  · obtain rfl := Option.some.inj (hl'.symm.trans hl₂)
    rw [haddr, hstop l' hl']
    exact h.le l hl
  · rw [hof]
    exact h.later k (hnext ▸ hk)
  · rw [hof, hnext, hleft]
    exact h.words k sec hk htext (hnext ▸ hlt)
  · rw [hnext, htodo]
    rcases h.ended hf hvac hl (.inl hcuts) hs hstep hk htext (hnext ▸ hlt) hsym hv with hp | hh
    · exact .inl hp
    · exact .inr (.inr hh)

/-- A function that a symbol delimits. -/
theorem enter (h : Scanned p c) (hm : Maps c.s) (hgood : Scans p c) (hl : c.loop = none)
    (htodo : c.todo = F :: todo) (hs : c.step p = .ok c') (hstep : Step p c c') : Scanned p c' := by
  obtain ⟨htodo', hnext, hsec, hl', hwords, hmod, hmain, obj, hobj, hobjsec⟩ :=
    step_enter hm hl htodo hs
  have hopen : c.next = c.s.sec + 1 := h.sec.resolve_right fun ⟨_, _, hnil⟩ => by
    rw [htodo] at hnil
    cases hnil
  have hof : ∀ k, c'.s.wordsOf k = c.s.wordsOf k := fun k => wordsOf_eq hwords
  have hleft : c'.left = c.left := by
    rw [left_loop hl', left_idle hl, htodo', htodo]
    rfl
  obtain ⟨hrange, hfree⟩ := hgood.enter F hl (by rw [htodo]; rfl)
  refine ⟨.inl (by rw [hnext, hsec, hopen]), fun l obj' _ ho => ?_, fun l hl₂ => ?_,
    hleft ▸ h.stops, fun k hk => ?_, fun k sec hk htext hlt => ?_,
    fun k sec hk htext hlt sym hsym hv => ?_⟩
  · obtain rfl := Option.some.inj (hobj.symm.trans ho)
    rw [hobjsec, hsec]
  · obtain rfl := Option.some.inj (hl'.symm.trans hl₂)
    exact le_of_lt hrange
  · rw [hof]
    exact h.later k (hnext ▸ hk)
  · rw [hof, hnext, hleft]
    exact h.words k sec hk htext (hnext ▸ hlt)
  · rw [hnext, htodo']
    rcases h.symbols k sec hk htext (hnext ▸ hlt) sym hsym hv with ⟨hk', G, hG, hname, hstart⟩ |
      ⟨-, l, hl₁, -⟩ | ⟨f, hm, hh⟩
    · rw [htodo] at hG
      rcases List.mem_cons.mp hG with rfl | hG
      · refine .inr (.inl ⟨hk', _, hl', hstart, hrange, ?_⟩)
        rw [hstep.enters_fn hl htodo hl', ← hname]
        exact hmain hfree
      · exact .inl ⟨hk', G, hG, hname, hstart⟩
    · rw [hl] at hl₁
      cases hl₁
    · exact .inr (.inr ⟨f, hmod _ _ hm, hh.step hstep⟩)

/-- The next section, or the end. -/
theorem idle (h : Scanned p c) (hp : p.Aligned)
    (hsize : ∀ sec ∈ p.sections, sec.isText → sec.size % 4 = 0) (hl : c.loop = none)
    (htodo : c.todo = []) (hs : c.step p = .ok c') (hstep : Step p c c') : Scanned p c' := by
  rcases step_idle hl htodo hs with rfl | ⟨next, hnext, rfl⟩
  · exact h
  have hmem := List.mem_of_getElem? hnext
  refine ⟨.inl rfl, fun _ _ hl => (nomatch hl), fun _ hl => (nomatch hl), fun r hr => ?_,
    fun k hk => h.later k (le_of_lt hk), fun k sec hk htext hlt => ?_,
    fun k sec hk htext hlt sym hsym hv => ?_⟩
  · obtain ⟨F, hF, rfl⟩ := List.mem_map.mp hr
    exact funcs_stop hp hmem (hsize next hmem) F hF
  · by_cases hcurrent : k = c.next
    · subst hcurrent
      obtain rfl := Option.some.inj (hnext.symm.trans hk)
      refine ⟨0, h.later c.next (le_refl _), ?_⟩
      rw [if_pos rfl]
      exact funcs_tiles htext
    · have hlt : k < c.next + 1 := hlt
      obtain ⟨n, hn, htiles⟩ := h.words k sec hk htext (by omega)
      have hleft : c.left = [] := by
        rw [left_idle hl, htodo]
        rfl
      rw [hleft, ite_self] at htiles
      refine ⟨n, hn, ?_⟩
      rw [if_neg fun heq => hcurrent (Nat.succ.inj heq)]
      exact htiles
  · by_cases hcurrent : k = c.next
    · subst hcurrent
      obtain rfl := Option.some.inj (hnext.symm.trans hk)
      exact .inl ⟨rfl, funcs_mem htext hsym hv⟩
    · have hlt : k < c.next + 1 := hlt
      rcases h.symbols k sec hk htext (by omega) sym hsym hv with ⟨-, F, hF, -⟩ | ⟨-, l, hl₁, -⟩ |
        ⟨f, hm, hh⟩
      · rw [htodo] at hF
        cases hF
      · rw [hl] at hl₁
        cases hl₁
      · exact .inr (.inr ⟨f, hm, hh.step hstep⟩)

/-- **A step of a scan.** -/
theorem step (h : Scanned p c) (hp : p.Aligned)
    (hsize : ∀ sec ∈ p.sections, sec.isText → sec.size % 4 = 0) (hf : Fresh p c)
    (hvac : Vacated p c) (hgood : Scans p c) (hs : c.step p = .ok c') (hstep : Step p c c') :
    Scanned p c' := by
  cases id hstep with
  | turn loop lt stays next => exact h.turn hf loop lt stays next hs hstep
  | leave loop le next blk dests words => exact h.leave hf hvac loop le next words hs hstep
  | cut loop cuts registered known blk dests fnOf next st entered left words =>
    exact h.cut hf hvac hgood loop cuts next (entered.addr.trans (entered.st.symm.trans st))
      words hs hstep
  | enter loop named =>
    obtain ⟨F, todo, htodo, -⟩ := named
    exact h.enter hf.maps hgood loop htodo hs hstep
  | idle loop next =>
    cases htodo : c.todo with
    | nil => exact h.idle hp hsize loop htodo hs hstep
    | cons F todo => exact h.enter hf.maps hgood loop htodo hs hstep

/-- A new image. -/
theorem image (h : Scanned p c) (hl : c.loop = none) {pending : Map Nat PendingReloc}
    {sections : String → List Constant} : Scanned p (c.image pending sections) := by
  refine ⟨h.sec, h.cur, h.le, h.stops, h.later, h.words, fun k sec hk htext hlt sym hsym hv => ?_⟩
  refine (h.symbols k sec hk htext hlt sym hsym hv).imp_right (Or.imp_right ?_)
  exact fun ⟨f, hm, hh⟩ => ⟨f, hm, hh.image hl (holds_keeps p k sym.addr f)⟩

/-- A function that a relocation refers to. -/
theorem look (h : Scanned p c) (hf : Fresh p c) {k : Nat} {t : State} (hlook : Looks p c k a t) :
    Scanned p {c with s := t} := by
  have ha := hlook.aside
  have hsec := hlook.sec
  have hof : ∀ k, t.wordsOf k = c.s.wordsOf k := fun k => wordsOf_eq ha.words
  refine ⟨?_, fun l obj hl ho => ?_, h.le, h.stops, fun k hk => (hof k).trans (h.later k hk),
    fun k sec hk htext hlt => ?_, fun k sec hk htext hlt sym hsym hv => ?_⟩
  · show c.next = t.sec + 1 ∨ _
    rw [hsec]
    exact h.sec
  · have ho : t.objs t.cur = some obj := ho
    show obj.sec = t.sec
    rw [ha.cur] at ho
    rw [hsec]
    obtain ⟨body, s₀, f, pr, hr⟩ := hf.run l hl
    rcases ha.objs _ obj ho with hold | ⟨heq, -⟩
    · exact h.cur l obj hl hold
    · exact absurd heq (Nat.ne_of_lt hr.cur)
  · obtain ⟨n, hn, htiles⟩ := h.words k sec hk htext hlt
    exact ⟨n, (hof k).trans hn, htiles⟩
  · rcases h.symbols k sec hk htext hlt sym hsym hv with hp | ⟨hk', l, hl, hst, hrange, hm⟩ |
      ⟨f, hm, hh⟩
    · exact .inl hp
    · refine .inr (.inl ⟨hk', l, hl, hst, hrange, ?_⟩)
      show t.module.get? sym.name = some t.blk.func.f
      rw [ha.blk]
      exact hlook.module hm
    · exact .inr (.inr ⟨f, hlook.module hm, Between.aside hh ha⟩)

end Scanned

/-- What every state of a scan keeps, whatever relocations refer to. -/
theorem Moves.scanned {pending : Map Nat PendingReloc} {sections : String → List Constant}
    {looks : Config → Nat → Nat → Prop} (hp : p.Aligned)
    (hsize : ∀ sec ∈ p.sections, sec.isText → sec.size % 4 = 0)
    (h : Moves p (Scans p) looks (Config.init pending sections) c) : Scanned p c :=
  (h.vacated hp (fun _ hg => ⟨hg.apart, hg.unfilled⟩) 
    ⟨Config.init_vacated p pending sections, .init pending sections⟩
    (fun _ _ hf hv hg hs hstep hi => hi.step hp hsize hf hv hg hs hstep)
    (fun _ _ _ hl _ hi => hi.image hl) fun _ _ _ _ hf _ hlook hi => hi.look hf hlook).2

/-- **Symbols delimit functions.** Where every step of a translation gives each symbol a function
of its own, every text section that has been translated has had its words translated once each
and in order, from the first function or global symbol to the end and none outside of the section,
and the LLVM function with the name of a symbol holds the code translated from its address. -/
theorem symbols_delimit (p : Program) (pending : Map Nat PendingReloc)
    (sections : String → List Constant) (hp : p.Aligned)
    (hsize : ∀ sec ∈ p.sections, sec.isText → sec.size % 4 = 0) (c : Config)
    (h : Moves p (Scans p) (fun _ _ _ => True) (Config.init pending sections) c)
    (hl : c.loop = none) (htodo : c.todo = [])
    (k : Nat) (sec : Section) (hk : p.sections[k]? = some sec) (htext : sec.isText)
    (hlt : k < c.next) :
    c.s.wordsOf k = List.range' sec.first ((sec.size - sec.first) / 4) 4 ∧
      (∀ a ∈ c.s.wordsOf k, a + 4 ≤ sec.size) ∧
      ∀ sym ∈ sec.symbols, sym.isValid → ∃ f, c.s.module.get? sym.name = some f ∧
        Holds p k sym.addr f c.s.blk c.s.dests := by
  have hscan := h.scanned hp hsize
  obtain ⟨n, hn, htiles⟩ := hscan.words k sec hk htext hlt
  have hleft : c.left = [] := by
    rw [left_idle hl, htodo]
    rfl
  rw [hleft, ite_self] at htiles
  have hend : sec.first + 4 * n = sec.size := htiles
  refine ⟨?_, fun a ha => ?_, fun sym hsym hv => ?_⟩
  · rw [hn, ← hend, Nat.add_sub_cancel_left, Nat.mul_div_cancel_left n (by decide)]
  · rw [hn] at ha
    obtain ⟨i, hi, rfl⟩ := List.mem_range'.mp ha
    omega
  · rcases hscan.symbols k sec hk htext hlt sym hsym hv with ⟨-, F, hF, -⟩ | ⟨-, l, hl₁, -⟩ |
      ⟨f, hm, hh⟩
    · rw [htodo] at hF
      cases hF
    · rw [hl] at hl₁
      cases hl₁
    · exact ⟨f, hm, hh.idle hl⟩

/-- Steps that cut no function, where the next one has words and an LLVM function of its own. -/
def Config.scans (c : Config) : Bool :=
  match c.loop, c.todo with
  | some l, _ => l.stop ≤ l.addr || !c.cutting
  | none, F :: _ => c.s.blk.layout (c.s.fnOf F.name) = [] && F.start < F.stop &&
      (F.name ≠ "main" || c.s.module.get? "main" = none)
  | none, [] => true

theorem scans_spec (h : c.scans = true) : Scans p c := by
  obtain ⟨s, next, todo, loop⟩ := c
  unfold Config.scans at h
  cases loop with
  | some l =>
    have hno : ∀ l', some l = some l' → ¬ Cuts s l' := by
      rintro _ ⟨⟩ hcuts
      rcases Bool.or_eq_true_iff.mp h with hge | hcut
      · exact absurd hcuts.1 (Nat.not_lt.mpr (of_decide_eq_true hge))
      · exact not_cuts (c := ⟨s, next, todo, some l⟩) ((Bool.not_eq_true' _).mp hcut) rfl hcuts
    exact ⟨fun l' _ hl' hcuts => absurd hcuts (hno l' hl'),
      ⟨fun l' _ _ hl' hcuts => absurd hcuts (hno l' hl'), fun _ _ hl => (by cases hl)⟩,
      fun l' _ _ hl' hcuts => absurd hcuts (hno l' hl'), fun _ hl => (by cases hl)⟩
  | none =>
    have hhead : ∀ F todo', todo = F :: todo' → (s.blk.layout (s.fnOf F.name) = [] ∧
        F.start < F.stop) ∧ (F.name = "main" → s.module.get? "main" = none) := by
      rintro F todo' rfl
      simpa [imp_iff_not_or] using h
    refine ⟨fun _ _ hl => (by cases hl),
      ⟨fun _ _ _ hl => (by cases hl), fun F todo' _ htodo => (hhead F todo' htodo).1.1⟩,
      fun _ _ _ hl => (by cases hl), fun F _ hF => ?_⟩
    obtain ⟨todo', rfl⟩ := List.head?_eq_some_iff.mp hF
    exact ⟨(hhead F todo' rfl).1.2, (hhead F todo' rfl).2⟩

/-- Two functions, with a label in the first one. -/
def sideSection : Section where
  size := 12
  symbols := [⟨"a", 0, true, false⟩, ⟨"here", 4, false, false⟩, ⟨"b", 8, false, true⟩]
  inst _ := .ret 1

theorem side_delimited : ∃ c : Config, c.s.wordsOf 0 = [0, 4, 8] ∧ ∀ sym ∈ sideSection.symbols,
    sym.isValid → ∃ f, c.s.module.get? sym.name = some f ∧
      Holds {sections := [sideSection]} 0 sym.addr f c.s.blk c.s.dests := by
  obtain ⟨c, hc, hP⟩ := checks_spec (P := fun c => c.loop = none ∧ c.todo = [] ∧ c.next = 1)
    (show (Config.init Map.empty fun _ => []).checks {sections := [sideSection]} 8 _ = true by
      decide +kernel)
  obtain ⟨hl, htodo, hnext⟩ := of_decide_eq_true hP
  have hgood : ∀ m, m < 8 → (Config.init Map.empty fun _ => []).checks {sections := [sideSection]} m
      Config.scans = true := by decide +kernel
  have hreach : Config.Reach {sections := [sideSection]} (Scans {sections := [sideSection]})
      Map.empty (fun _ => []) c := Run.start.iterate 8 (fun m hm d hd => by
    obtain ⟨d', hd', ha⟩ := checks_spec (hgood m hm)
    obtain rfl := Except.ok.inj (hd.symm.trans hd')
    exact scans_spec ha) hc
  obtain ⟨hwords, -, hsyms⟩ := symbols_delimit {sections := [sideSection]} Map.empty (fun _ => [])
    (fun sec hsec sym hsym _ => by
      obtain rfl := List.mem_singleton.mp hsec
      have hall : ∀ sym ∈ sideSection.symbols, sym.addr % 4 = 0 := by decide
      exact hall sym hsym)
    (fun sec hsec _ => by
      obtain rfl := List.mem_singleton.mp hsec
      rfl)
    c (.of_run hreach) hl htodo 0 sideSection rfl rfl (by omega)
  exact ⟨c, hwords, hsyms⟩

/-- Two functions at one address. -/
def aliasSection : Section where
  size := 4
  symbols := [{name := "a", addr := 0}, {name := "b", addr := 0}]
  inst _ := .ret 1

/-- The first of them only returns. -/
theorem alias_empty : ∃ c : Config, Config.Reach {sections := [aliasSection]} (fun _ => True)
    Map.empty (fun _ => []) c ∧ c.loop = none ∧ c.todo = [] ∧ c.next = 1 ∧
      c.s.module.get? "a" = some 0 ∧
      ¬ Holds {sections := [aliasSection]} 0 0 0 c.s.blk c.s.dests := by
  obtain ⟨c, hc, hP⟩ := checks_spec (P := fun c => c.loop = none ∧ c.todo = [] ∧ c.next = 1 ∧
      c.s.module.get? "a" = some 0 ∧ c.s.blk.layout 0 = [0] ∧
      ∀ i ∈ (c.s.blk.bbs 0).insts, c.s.blk.marks i.id ≠ some 0)
    (show (Config.init Map.empty fun _ => []).checks {sections := [aliasSection]} 6 _ = true by
      decide +kernel)
  obtain ⟨hl, htodo, hnext, hname, hlay, hmarks⟩ := of_decide_eq_true hP
  refine ⟨c, Run.start.iterate 6 (fun _ _ _ _ => trivial) hc, hl, htodo, hnext, hname, fun h => ?_⟩
  obtain ⟨b, rest, hb, -, q, i, r, hinsts, -, hi⟩ := h.body
  obtain ⟨rfl, -⟩ := List.cons.inj (hlay.symm.trans hb)
  refine hmarks i ?_ hi
  rw [hinsts]
  exact List.mem_append_right _ List.mem_cons_self

end RiscvSbt.Context
