import RiscvSbt.Context.Walk

/-! What goes on between the steps of a translation.

Before the sections of an input file are translated, its image is built: words of data wait for
labels, and the functions that data refers to are looked up. In front of an instruction, the
function that its relocation refers to is. A lookup may make a function known but makes no code,
so that it leaves alone what a run keeps of the blocks. -/
namespace RiscvSbt.Context
open Library Block State

/-- The image of a file, and the words that wait in it. -/
def Config.image (c : Config) (pending : Map Nat PendingReloc)
    (sections : String → List Constant) : Config :=
  {c with s := {c.s with blk := {c.s.blk with pending := pending, sections := sections}}}

/-- The function at an address of a section is looked up for a relocation, which leaves the
given state. -/
inductive Looks (p : Program) (c : Config) : Nat → Nat → State → Prop where
  /-- `processSectionReloc`, for data of the file whose sections are translated next. -/
  | word {k a o : Nat} {sec : Section} {t : State} (idle : c.loop = none) (done : c.todo = [])
      (later : c.next ≤ k) (sec_eq : p.sections[k]? = some sec)
      (get : {c.s with sec := k}.getByAddr sec a = .ok (o, t)) :
      Looks p c k a {t with sec := c.s.sec}
  /-- `handleRelocation`, for the instruction that is translated next. -/
  | operand {a o : Nat} {l : Loop} {sec : Section} {t : State} (loop : c.loop = some l)
      (lt : l.addr < l.stop) (stays : ¬ Cuts c.s l) (sec_eq : p.sections[c.s.sec]? = some sec)
      (ahead : (c.s.funcByAddr.get? a).isSome ∨ l.addr < a)
      (get : {c.s with addr := l.addr}.getByAddr sec a = .ok (o, t)) : Looks p c c.s.sec a t

/-- The states reached from `c₀` by steps from good states, by new images, and by lookups that
are allowed. -/
inductive Moves (p : Program) (good : Config → Prop) (looks : Config → Nat → Nat → Prop)
    (c₀ : Config) : Config → Prop where
  | start : Moves p good looks c₀ c₀
  | step {c c' : Config} (before : Moves p good looks c₀ c) (hgood : good c)
      (step : c.step p = .ok c') : Moves p good looks c₀ c'
  | image {c : Config} (pending : Map Nat PendingReloc) (sections : String → List Constant)
      (before : Moves p good looks c₀ c) (idle : c.loop = none) (done : c.todo = []) :
      Moves p good looks c₀ (c.image pending sections)
  | look {c : Config} {k a : Nat} {t : State} (before : Moves p good looks c₀ c)
      (hlooks : looks c k a) (look : Looks p c k a t) : Moves p good looks c₀ {c with s := t}

variable {p : Program} {s t : State} {l : Loop} {c c' c₀ : Config} {body : Nat → Inst}
  {s₀ : Block.State} {f : FnId} {pr k a : Nat} {good : Config → Prop}
  {looks : Config → Nat → Nat → Prop}

/-! ### Lookups -/

namespace Looks

/-- Both kinds of lookups are `getByAddr` in the section. -/
theorem get (h : Looks p c k a t) : ∃ sec o x u, p.sections[k]? = some sec ∧
    {c.s with sec := k, addr := x}.getByAddr sec a = .ok (o, u) ∧ t = {u with sec := c.s.sec} := by
  cases h with
  | @word _ _ o sec t idle done later sec_eq get => exact ⟨sec, o, c.s.addr, t, sec_eq, get, rfl⟩
  | @operand _ o l sec t loop lt stays sec_eq ahead get =>
    refine ⟨sec, o, l.addr, t, sec_eq, get, ?_⟩
    have hsec := getByAddr_sec get
    dsimp only at hsec
    rw [← hsec]

theorem aside (h : Looks p c k a t) : Aside c.s t := by
  obtain ⟨sec, o, x, u, -, hu, rfl⟩ := h.get
  have ha := getByAddr_aside hu
  exact ⟨ha.blk, ha.dests, ha.words, ha.inMain, ha.cur, ha.nextFn, ha.nextObj, ha.objs⟩

theorem sec (h : Looks p c k a t) : t.sec = c.s.sec := by
  obtain ⟨sec, o, x, u, -, -, rfl⟩ := h.get
  rfl

theorem calls (h : Looks p c k a t) : t.calls = c.s.calls := by
  obtain ⟨sec, o, x, u, -, hu, rfl⟩ := h.get
  have hcalls := getByAddr_calls hu
  exact hcalls

theorem module {n : String} (h : Looks p c k a t) (hn : c.s.module.get? n = some f) :
    t.module.get? n = some f := by
  obtain ⟨sec, o, x, u, -, hu, rfl⟩ := h.get
  have hn : {c.s with sec := k, addr := x}.module.get? n = some f := hn
  have hun := getByAddr_module hu hn
  exact hun

theorem maps (h : Looks p c k a t) (hm : Maps c.s) : Maps t := by
  obtain ⟨sec, o, x, u, -, hu, rfl⟩ := h.get
  have hm' : Maps {c.s with sec := k, addr := x} :=
    ⟨hm.fresh, hm.ids, hm.addr, hm.name, hm.fn, hm.inj⟩
  have hu := (hm'.getByAddr hu).1
  exact ⟨hu.fresh, hu.ids, hu.addr, hu.name, hu.fn, hu.inj⟩

end Looks

/-! ### What a lookup leaves alone -/

theorem Running.aside (h : Running p s l body s₀ f pr) (ha : Aside s t) :
    Running p t l body s₀ f pr := by
  refine ⟨ha.blk ▸ h.reach, h.laid, h.aligned, lt_of_lt_of_le h.fn ha.nextFn, ?_, fun obj ho => ?_⟩
  · rw [ha.cur]
    exact lt_of_lt_of_le h.cur ha.nextObj
  · rw [ha.cur] at ho
    rcases ha.objs _ obj ho with hold | ⟨heq, -⟩
    · obtain ⟨hbody, haddr, hpr, hmain⟩ := h.obj obj hold
      exact ⟨hbody, haddr, hpr, ha.inMain.trans hmain⟩
    · exact absurd heq (Nat.ne_of_lt h.cur)

theorem Between.aside {I : Block.State → (Nat → List Nat) → Prop} (h : Between p I c)
    (ha : Aside c.s t) : Between p I {c with s := t} := by
  refine ⟨fun hl => ?_, fun l hl => ?_⟩
  · show I t.blk t.dests
    rw [ha.blk, ha.dests]
    exact h.1 hl
  · obtain ⟨body, s₀, f, pr, hr, hI⟩ := h.2 l hl
    refine ⟨body, s₀, f, pr, hr.aside ha, ?_⟩
    show I s₀ t.dests
    rwa [ha.dests]

theorem Vacated.aside (h : Vacated p c) (ha : Aside c.s t) : Vacated p {c with s := t} := by
  intro l hl
  obtain ⟨body, s₀, f, pr, hr, hlinked, hempty⟩ := h l hl
  refine ⟨body, s₀, f, pr, hr.aside ha, ?_, hempty⟩
  show Linked s₀ t.dests
  rwa [ha.dests]

theorem Fresh.aside (h : Fresh p c) (ha : Aside c.s t) (hm : Maps t) :
    Fresh p {c with s := t} := by
  refine ⟨hm, fun o obj ho hor => ?_, h.todo, ?_, fun g hg => ?_, fun hl => ?_, fun l hl => ?_⟩
  · rcases ha.objs o obj ho with hold | ⟨-, hb⟩
    · refine h.objs o obj hold (hor.imp_right fun hne heq => hne ?_)
      exact heq.trans ha.cur.symm
    · exact .inl hb
  · show ∀ g, ∀ b ∈ t.blk.layout g, b < t.blk.nextBlock
    rw [ha.blk]
    exact h.laid
  · show t.blk.layout g = []
    rw [ha.blk]
    exact h.unborn g (le_trans ha.nextFn hg)
  · show t.blk.bld.updateFirst = true ∧ t.inMain = false
    rw [ha.blk, ha.inMain]
    exact h.idle hl
  · obtain ⟨body, s₀, f, pr, hr⟩ := h.run l hl
    exact ⟨body, s₀, f, pr, hr.aside ha⟩

/-! ### A new image -/

section Image
variable {pending : Map Nat PendingReloc} {sections : String → List Constant}
  (idle : c.loop = none)
include idle

theorem Between.image {I : Block.State → (Nat → List Nat) → Prop} (hk : Keeps p I)
    (h : Between p I c) : Between p I (c.image pending sections) := by
  refine ⟨fun _ => hk.image _ _ _ _ (h.1 idle), fun l hl => ?_⟩
  cases idle.symm.trans hl

theorem Fresh.image (h : Fresh p c) : Fresh p (c.image pending sections) := by
  have hm := h.maps
  refine ⟨⟨hm.fresh, hm.ids, hm.addr, hm.name, hm.fn, hm.inj⟩, h.objs, h.todo, h.laid, h.unborn,
    h.idle, fun l hl => ?_⟩
  cases idle.symm.trans hl

end Image

/-! ### Runs -/

/-- Nothing has been translated yet. -/
theorem Config.init_vacated (p : Program) (pending : Map Nat PendingReloc)
    (sections : String → List Constant) : Fresh p (Config.init pending sections) ∧
      Between p Linked (Config.init pending sections) ∧ Vacated p (Config.init pending sections) :=
  ⟨.init pending sections, ⟨fun _ => .init, fun _ hl => (by cases hl)⟩, fun _ hl => (by cases hl)⟩

theorem Moves.mono {good' : Config → Prop} {looks' : Config → Nat → Nat → Prop}
    (h : Moves p good looks c₀ c) (hgood : ∀ c, good c → good' c)
    (hlooks : ∀ c k a, looks c k a → looks' c k a) : Moves p good' looks' c₀ c := by
  induction h with
  | start => exact .start
  | step _ hg hs ih => exact .step ih (hgood _ hg) hs
  | image pending sections _ idle done ih => exact .image pending sections ih idle done
  | look _ hl look ih => exact .look ih (hlooks _ _ _ hl) look

theorem Moves.trans {c₁ : Config} (h : Moves p good looks c₀ c₁) (h' : Moves p good looks c₁ c) :
    Moves p good looks c₀ c := by
  induction h' with
  | start => exact h
  | step _ hg hs ih => exact .step ih hg hs
  | image pending sections _ idle done ih => exact .image pending sections ih idle done
  | look _ hl look ih => exact .look ih hl look

/-- A translation without relocations of functions. -/
theorem Moves.of_run (h : Run (Config.step p) good c₀ c) : Moves p good looks c₀ c := by
  induction h with
  | start => exact .start
  | step _ hg hs ih => exact .step ih hg hs

/-- The maps of a run with lookups. -/
theorem Moves.maps (h : Moves p good looks c₀ c) (hm : Maps c₀.s) : Maps c.s := by
  induction h with
  | start => exact hm
  | step _ _ hs ih => exact ih.step hs
  | image pending sections _ _ _ ih => exact ⟨ih.fresh, ih.ids, ih.addr, ih.name, ih.fn, ih.inj⟩
  | look _ _ look ih => exact look.maps ih

/-- What the module has stays there. -/
theorem Moves.module (h : Moves p good looks c₀ c) (hm : Maps c₀.s) {n : String}
    (hn : c₀.s.module.get? n = some f) : c.s.module.get? n = some f := by
  induction h with
  | start => exact hn
  | step before _ hs ih => exact step_module (before.maps hm) hs ih
  | image pending sections _ _ _ ih => exact ih
  | look _ _ look ih => exact look.module ih

/-- **What holds between the functions of a run with lookups.** -/
theorem Moves.between (hp : p.Aligned) (hgood : ∀ c, Fresh p c → good c → Clean c)
    {I : Block.State → (Nat → List Nat) → Prop} (hk : Keeps p I) (h : Moves p good looks c₀ c)
    (hf : Fresh p c₀) (hb : Between p I c₀) : Fresh p c ∧ Between p I c := by
  induction h with
  | start => exact ⟨hf, hb⟩
  | step _ hg hs ih =>
    obtain ⟨hstep, hfresh⟩ := ih.1.step hp (hgood _ ih.1 hg) hs
    exact ⟨hfresh, ih.2.step hk hstep⟩
  | image pending sections _ idle _ ih => exact ⟨ih.1.image idle, ih.2.image idle hk⟩
  | look _ _ look ih => exact ⟨ih.1.aside look.aside (look.maps ih.1.maps), ih.2.aside look.aside⟩

/-- **An invariant of runs with lookups** whose steps leave every function its own blocks. -/
theorem Moves.vacated {I : Config → Prop} (hp : p.Aligned)
    (hgood : ∀ c, good c → Apart p c ∧ Unfilled c)
    (h0 : (Fresh p c₀ ∧ Between p Linked c₀ ∧ Vacated p c₀) ∧ I c₀)
    (hstep : ∀ c c', Fresh p c → Vacated p c → good c → c.step p = .ok c' → Step p c c' →
      I c → I c')
    (himage : ∀ c pending sections, c.loop = none → c.todo = [] → I c →
      I (c.image pending sections))
    (hlook : ∀ c k a t, Fresh p c → looks c k a → Looks p c k a t → I c → I {c with s := t})
    (h : Moves p good looks c₀ c) :
    (Fresh p c ∧ Between p Linked c ∧ Vacated p c) ∧ I c := by
  induction h with
  | start => exact h0
  | step _ hg hs ih =>
    obtain ⟨⟨hf, hb, hv⟩, hi⟩ := ih
    obtain ⟨hapart, hunfilled⟩ := hgood _ hg
    obtain ⟨hnext, hf'⟩ := hf.step hp (hf.clean hapart) hs
    exact ⟨⟨hf', hb.step (linked_keeps p) hnext, hv.step hf hb hunfilled hnext⟩,
      hstep _ _ hf hv hg hs hnext hi⟩
  | image pending sections _ idle done ih =>
    obtain ⟨⟨hf, hb, -⟩, hi⟩ := ih
    refine ⟨⟨hf.image idle, hb.image idle (linked_keeps p), fun l hl => ?_⟩,
      himage _ pending sections idle done hi⟩
    cases idle.symm.trans hl
  | look _ hl look ih =>
    obtain ⟨⟨hf, hb, hv⟩, hi⟩ := ih
    have ha := look.aside
    exact ⟨⟨hf.aside ha (look.maps hf.maps), hb.aside ha, hv.aside ha⟩, hlook _ _ _ _ hf hl look hi⟩

end RiscvSbt.Context
