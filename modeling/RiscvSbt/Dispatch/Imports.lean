import RiscvSbt.Dispatch.Growth

/-! Imported functions among those of the guest.

Addresses of imported functions are given out from `FIRST_EXT_FUNC_ADDR` on, where the guest has no
function (`Low`). So they are told apart from each other and from the guest's, whatever is imported
in between, and what has been imported once is found from then on. -/
namespace RiscvSbt.Dispatch
open Library Context
open Block (FnId)
open Context.State (callee?)
open Caller (FuncType)
open Relocation (Import)

/-- The guest has no function where imported ones are put. -/
structure Low (p : Program) : Prop where
  symbols : ∀ sec ∈ p.sections, ∀ sym ∈ sec.symbols, sym.isValid → sym.addr < FIRST_EXT_FUNC_ADDR
  calls : ∀ sec ∈ p.sections, ∀ a t, callee? (sec.inst a).act = some t → t < FIRST_EXT_FUNC_ADDR

/-- What a relocation refers to is told apart, and is no imported function. -/
def Admitted (p : Program) (c : Config) (k a : Nat) : Prop :=
  (∀ sec, p.sections[k]? = some sec → Fits c.s ⟨k, a, State.nameAt sec a⟩) ∧
    a < FIRST_EXT_FUNC_ADDR

/-- The C library has data under the name, and no function. -/
def HasData (lc : Option LcModule) (name : String) : Prop :=
  ∃ l, lc = some l ∧ l.getFunction name = none ∧ l.getNamedGlobal name = true

/-- Runs that tell functions apart. -/
def Served (p : Program) (lc : Option LcModule) : Translator → Translator → Prop :=
  Runs p lc (Distinct p) (Admitted p)

/-- A function of the C library, that the module has under its name with the type it has there. -/
structure Imported (lc : Option LcModule) (t : Translator) (obj : Obj) : Prop where
  first : FIRST_EXT_FUNC_ADDR ≤ obj.addr
  last : obj.addr < t.extFuncAddr
  fn : ∃ f, t.c.s.module.get? obj.name = some f ∧
    lc.bind (·.getFunction obj.name) = some (t.types f) ∧ (t.types f).params.length < 9

/-- What steps and imports keep. -/
structure Sound (p : Program) (lc : Option LcModule) (t : Translator) : Prop where
  fresh : Fresh p t.c
  linked : Between p Linked t.c
  vacated : Vacated p t.c
  faithful : Faithful p t.c
  declared : Declared t.c.s
  born : Born t.c.s
  todo : ∀ F ∈ t.c.todo, F.start < FIRST_EXT_FUNC_ADDR
  base : FIRST_EXT_FUNC_ADDR ≤ t.extFuncAddr
  objs : ∀ o obj, t.c.s.objs o = some obj → obj.addr < FIRST_EXT_FUNC_ADDR ∨ Imported lc t obj

variable {p : Program} {lc : Option LcModule} {t t' t₀ t₁ t₂ : Translator} {c : Config} {obj : Obj}
  {o : Nat} {func func' xfunc : String} {r : Import × String} {ft : FuncType}

/-- It stays imported while the module grows. -/
theorem Imported.kept {obj' : Obj} (h : Imported lc t obj)
    (hmod : ∀ n f, t.c.s.module.get? n = some f → c.s.module.get? n = some f)
    (hname : obj'.name = obj.name) (haddr : obj'.addr = obj.addr) :
    Imported lc {t with c := c} obj' := by
  obtain ⟨f, hf, hrest⟩ := h.fn
  refine ⟨haddr ▸ h.first, haddr ▸ h.last, f, ?_, ?_⟩
  · rw [hname]
    exact hmod _ _ hf
  · rw [hname]
    exact hrest

/-! ### An import -/

/-- A function that is known, or a new one, or data. -/
theorem import_cases (h : t.import_ lc func = .ok (r, t')) :
    (∃ o obj, t.c.s.func.get? (subst func) = some o ∧ t.c.s.objs o = some obj ∧
    r = (.func obj.addr, subst func) ∧
        t' = t) ∨
      (t.c.s.func.get? (subst func) = none ∧ HasData lc (subst func) ∧ r = (.data, subst func) ∧
        t' = t) ∨
      ∃ ft, t.c.s.func.get? (subst func) = none ∧ lc.bind (·.getFunction (subst func)) = some ft ∧
        ft.params.length < 9 ∧ r = (.func t.extFuncAddr, subst func) ∧ t' =
        t.declare (subst func) ft := by
  unfold Translator.import_ at h
  dsimp only at h
  cases hget : t.c.s.func.get? (subst func) with
  | some o =>
    rw [hget] at h
    obtain ⟨obj, hobj, h⟩ := bind_ok h
    obtain ⟨rfl, rfl⟩ := Prod.mk.inj (Except.ok.inj h)
    exact .inl ⟨o, obj, rfl, live_ok hobj, rfl, rfl⟩
  | none =>
    rw [hget] at h
    cases lc with
    | none => cases h
    | some lc =>
      dsimp only at h
      cases hft : lc.getFunction (subst func) with
      | none =>
        rw [hft] at h
        dsimp only at h
        split at h
        next hdata =>
          obtain ⟨rfl, rfl⟩ := Prod.mk.inj (Except.ok.inj h)
          exact .inr (.inl ⟨rfl, ⟨lc, rfl, hft, hdata⟩, rfl, rfl⟩)
        next => cases h
      | some ft =>
        rw [hft] at h
        dsimp only at h
        split at h
        next hlt =>
          obtain ⟨rfl, rfl⟩ := Prod.mk.inj (Except.ok.inj h)
          exact .inr (.inr ⟨ft, rfl, hft, hlt, rfl, rfl⟩)
        next => cases h

namespace Sound

/-- A new name and a new address fit. -/
theorem fits (h : Sound p lc t) (hnone : t.c.s.func.get? xfunc = none) (f : FnId) :
    Fits t.c.s (t.external xfunc f).place := by
  intro o obj ho hor
  rcases hor with haddr | hname
  · have haddr : obj.addr = t.extFuncAddr := haddr
    have hbase := h.base
    rcases h.objs o obj ho with hlow | himp
    · omega
    · have := himp.last
      omega
  · have hname : obj.name = xfunc := hname
    have hget := h.fresh.maps.name o obj ho
    rw [hname, hnone] at hget
    cases hget

/-- A function that is not known is no function of the guest. -/
theorem not_ranged (h : Sound p lc t) (hnone : t.c.s.func.get? xfunc = none) (f : FnId) :
    ¬ Context.Ranged t.c.s (t.external xfunc f).place := by
  rintro ⟨o, obj, ho, hplace, -⟩
  have hname : obj.name = xfunc := congrArg Place.name hplace
  have hget := h.fresh.maps.name o obj ho
  rw [hname, hnone] at hget
  cases hget

/-- **A function is declared** that was not known. -/
theorem declare (h : Sound p lc t) (hnone : t.c.s.func.get? xfunc = none)
    (hft : lc.bind (·.getFunction xfunc) = some ft) (hlt : ft.params.length < 9) :
    Sound p lc (t.declare xfunc ft) ∧ Grown t.c.s (t.declare xfunc ft).c.s := by
  let obj := t.external xfunc (t.c.s.create xfunc).1
  let s' := ((t.c.s.create xfunc).2.newFunction obj).addFunc t.c.s.nextObj obj
  have hm := h.fresh.maps
  -- Under its name, the module has none either.
  have hmod : t.c.s.module.get? xfunc = none := by
    by_contra hsome
    have := h.declared xfunc (Option.isSome_iff_ne_none.mpr hsome)
    rw [hnone] at this
    cases this
  have hcreate : t.c.s.create xfunc = (t.c.s.nextFn, {t.c.s with
      module := t.c.s.module.upsert xfunc t.c.s.nextFn, nextFn := t.c.s.nextFn + 1}) := by
    unfold State.create
    rw [hmod]
  have hdecl : t.declare xfunc ft = ⟨{t.c with s := s'}, t.extFuncAddr + 4,
      Function.update t.types t.c.s.nextFn ft⟩ := by
    unfold Translator.declare
    simp only [s', obj, hcreate, if_pos hmod]
  have ha : Aside t.c.s s' := create_aside rfl
  obtain ⟨hident, hgrown⟩ : Identified s' ∧ Grown t.c.s s' :=
    create_identified rfl rfl h.faithful.ident hm (h.fits hnone _) (h.not_ranged hnone _)
  have hgrows : Grows (· = obj) t.c.s s' := create_grows rfl rfl
  have hm' : Maps s' := by
    have := (hm.create xfunc).addFunc obj
    simp only [s', hcreate] at this ⊢
    exact this
  have hobjs : ∀ o obj', s'.objs o = some obj' → obj' = obj ∨ t.c.s.objs o = some obj' :=
    fun o obj' ho => by
    simp only [s', hcreate] at ho
    exact (addFunc_objs ho).imp And.right And.right
  have hself : s'.module.get? xfunc = some t.c.s.nextFn := by
    simp only [s', hcreate]
    exact Map.get?_upsert_self _ _ _
  rw [hdecl]
  refine ⟨⟨h.fresh.aside ha hm', h.linked.aside ha, h.vacated.aside ha,
    h.faithful.aside h.fresh ha ?_ hident hgrown fun o obj' ho => ?_, hgrows.declared h.declared,
    fun o obj' ho => ?_, h.todo, Nat.le_add_right_of_le h.base, fun o obj' ho => ?_⟩, hgrown⟩
  · simp only [s', hcreate]
    rfl
  · rcases hobjs o obj' ho with rfl | hold
    · exact .inr rfl
    · exact .inl hold
  · rcases hobjs o obj' ho with rfl | hold
    · rfl
    · exact h.born o obj' hold
  · rcases hobjs o obj' ho with rfl | hold
    · refine .inr ⟨h.base, Nat.lt_add_of_pos_right (by decide), t.c.s.nextFn, hself, ?_⟩
      simp only [Function.update_self]
      exact ⟨hft, hlt⟩
    · refine (h.objs o obj' hold).imp_right fun hi => ?_
      obtain ⟨f, hf, hrest⟩ := hi.fn
      refine ⟨hi.first, Nat.lt_add_right 4 hi.last, f, hgrows.fn _ _ hf, ?_⟩
      simp only [Function.update_of_ne (Nat.ne_of_lt (hm.fn _ f hf))]
      exact hrest

/-- **An import.** -/
theorem import_ (h : Sound p lc t) (hi : t.import_ lc func = .ok (r, t')) :
    Sound p lc t' ∧ Grown t.c.s t'.c.s := by
  rcases import_cases hi with ⟨o, obj, -, -, -, rfl⟩ | ⟨-, -, -, rfl⟩ | ⟨ft,
    hnone, hft, hlt, -, rfl⟩
  · exact ⟨h, .refl _⟩
  · exact ⟨h, .refl _⟩
  · exact h.declare hnone hft hlt

/-! ### A step -/

/-- What a step comes upon is low. -/
theorem discovered (h : Sound p lc t) (hlow : Low p) (hd : Discovered p t.c obj) :
    obj.addr < FIRST_EXT_FUNC_ADDR := by
  rcases hd with ⟨F, hF, -, haddr⟩ | ⟨sec, hsec, a, hcallee⟩
  · rw [haddr]
    exact h.todo F hF
  · exact hlow.calls sec hsec a obj.addr hcallee

/-- **A step of the translation.** -/
theorem step (h : Sound p lc t) (hp : p.Aligned) (hlow : Low p) (hgood : Distinct p t.c)
    (hs : t.c.step p = .ok c) : Sound p lc {t with c := c} ∧ Grown t.c.s c.s := by
  obtain ⟨hstep, hfresh⟩ := h.fresh.step hp (h.fresh.clean hgood.apart) hs
  obtain ⟨hfaithful, hgrown⟩ := h.faithful.step h.fresh h.vacated hgood hs hstep
  have hgrows := step_grows h.fresh.maps hs
  refine ⟨⟨hfresh, h.linked.step (linked_keeps p) hstep,
    h.vacated.step h.fresh h.linked hgood.unfilled hstep, hfaithful, hgrows.declared h.declared,
    step_born h.born hs, fun F hF => ?_, h.base, fun o obj' ho => ?_⟩, hgrown⟩
  · rcases step_todo hs hF with hold | ⟨sec, hsec, hF⟩
    · exact h.todo F hold
    · unfold Section.funcs at hF
      split at hF
      · rcases Fresh.delimit_start hF with ⟨sym, hnone, -⟩ | ⟨sym, hsym, hv, hstart⟩
        · cases hnone
        · rw [hstart]
          exact hlow.symbols sec hsec sym hsym hv
      · cases hF
  · rcases hgrows.objs o obj' ho with hd | ⟨obj, hold, hname, haddr⟩
    · exact .inl (h.discovered hlow hd)
    · rw [haddr]
      exact (h.objs o obj hold).imp_right fun hi => hi.kept hgrows.fn hname haddr

/-- A lookup for a relocation. -/
theorem look {k a : Nat} {s : State} (h : Sound p lc t) (hlook : Looks p t.c k a s)
    (hadmitted : Admitted p t.c k a) :
    Sound p lc {t with c := {t.c with s := s}} ∧ Grown t.c.s s := by
  have ha := hlook.aside
  obtain ⟨hfaithful, hgrown⟩ := h.faithful.look h.fresh hlook hadmitted.1
  have hgrows : Grows (·.addr = a) t.c.s s := look_grows hlook fun _ => id
  refine ⟨⟨h.fresh.aside ha (hlook.maps h.fresh.maps), h.linked.aside ha, h.vacated.aside ha,
    hfaithful, hgrows.declared h.declared, look_born hlook h.born, h.todo, h.base,
    fun o obj' ho => ?_⟩, hgrown⟩
  rcases hgrows.objs o obj' ho with haddr | ⟨obj, hold, hname, haddr⟩
  · exact .inl (haddr ▸ hadmitted.2)
  · rw [haddr]
    exact (h.objs o obj hold).imp_right fun hi => hi.kept hgrows.fn hname haddr

/-- The image of the next file is built. -/
theorem image (h : Sound p lc t) (hl : t.c.loop = none) {pending : Map Nat Block.PendingReloc}
    {sections : String → List Block.Constant} :
    Sound p lc {t with c := t.c.image pending sections} :=
  ⟨h.fresh.image hl, h.linked.image hl (linked_keeps p), fun l hl' => (by cases hl.symm.trans hl'),
    h.faithful.image hl, h.declared, h.born, h.todo, h.base, fun o obj ho =>
      (h.objs o obj ho).imp_right fun hi => hi.kept (fun _ _ hf => hf) rfl rfl⟩

end Sound

/-! ### Runs -/

theorem Sound.init (pending : Map Nat Block.PendingReloc)
    (sections : String → List Block.Constant) :
    Sound p lc (.init pending sections) :=
  ⟨.init pending sections, ⟨fun _ => .init, fun _ hl => (nomatch hl)⟩, fun _ hl => (nomatch hl),
    .init pending sections, fun _ hn => (nomatch hn), fun _ _ ho => (nomatch ho),
      fun _ hF => (nomatch hF),
    le_refl _, fun _ _ ho => (nomatch ho)⟩

/-- **Every run keeps it**, and loses no function. -/
theorem Served.sound (hp : p.Aligned) (hlow : Low p) (h : Served p lc t₀ t) (h₀ : Sound p lc t₀) :
    Sound p lc t ∧ Grown t₀.c.s t.c.s := by
  induction h with
  | start => exact ⟨h₀, .refl _⟩
  | step _ good step ih =>
    obtain ⟨hsound, hgrown⟩ := ih
    obtain ⟨hsound', hgrown'⟩ := hsound.step hp hlow good step
    exact ⟨hsound', hgrown.trans hgrown'⟩
  | import_ _ imports ih =>
    obtain ⟨hsound, hgrown⟩ := ih
    obtain ⟨hsound', hgrown'⟩ := hsound.import_ imports
    exact ⟨hsound', hgrown.trans hgrown'⟩
  | image pending sections _ idle _ ih => exact ⟨ih.1.image idle, ih.2⟩
  | look _ admitted look ih =>
    obtain ⟨hsound, hgrown⟩ := ih
    obtain ⟨hsound', hgrown'⟩ := hsound.look look admitted
    exact ⟨hsound', hgrown.trans hgrown'⟩

end RiscvSbt.Dispatch
