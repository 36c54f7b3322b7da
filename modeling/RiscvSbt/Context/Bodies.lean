import RiscvSbt.Context.Tables

/-! The code that a function of the module begins with.

A function that is translated into an LLVM function of its own gives it an entry block, and
behind the prologue that has the code of the first instruction (`Body`). Later functions leave
it there. -/
namespace RiscvSbt.Context
open Library Block State

/-- The LLVM function `f` begins with the instruction at `k`. -/
def Body (t : Block.State) (f : FnId) (k : Nat) : Prop :=
  ∃ b rest, t.layout f = b :: rest ∧ Begins t b k

/-- A body that a function translated before has, also while another one is. -/
def Bodied (p : Program) (f : FnId) (k : Nat) : Config → Prop :=
  Between p fun s d => Linked s d ∧ Body s f k

/-- The function in progress has an LLVM function of its own. -/
def Vacated (p : Program) (c : Config) : Prop :=
  ∀ l, c.loop = some l → ∃ body s₀ f pr, Running p c.s l body s₀ f pr ∧ Linked s₀ c.s.dests ∧
    s₀.layout f = []

variable {p : Program} {s : State} {l : Loop} {c c' : Config} {body : Nat → Inst}
  {s₀ t : Block.State} {f g : FnId} {pr k b : Nat} {d e : Nat → List Nat}

/-- Instructions that have been made stay where they are. -/
theorem Begins.kept (h : Begins s₀ b k) (hk : Kept s₀ d t e) (hb : b < s₀.nextBlock)
    (hids : ∀ i ∈ (s₀.bbs b).insts, i.id < s₀.nextInstr) : Begins t b k := by
  obtain ⟨haddr, q, i, r, hins, hq, hi⟩ := h
  rw [hins] at hids
  refine ⟨by rw [hk.bbs b hb]; exact haddr, q, i, r, by rw [hk.bbs b hb]; exact hins,
    hq.grow fun j hj => ?_, ?_⟩
  · exact hk.marks j.id (hids j (List.mem_append_left _ hj))
  · rw [hk.marks i.id (hids i (List.mem_append_right _ List.mem_cons_self))]
    exact hi

/-- A body from before, where the blocks of its function are still the first ones. -/
theorem Body.kept (h : Body s₀ g k) (hs : Linked s₀ d)
    (hlaid : ∀ g, ∀ b ∈ s₀.layout g, b < s₀.nextBlock) (hk : Kept s₀ d t e)
    (hl : ∀ b rest, s₀.layout g = b :: rest → ∃ rest', t.layout g = b :: rest') : Body t g k := by
  obtain ⟨b, rest, hlay, hb⟩ := h
  obtain ⟨rest', hlay'⟩ := hl b rest hlay
  have hlt : b < s₀.nextBlock := hlaid g b (by rw [hlay]; exact List.mem_cons_self)
  exact ⟨b, rest', hlay', hb.kept hk hlt (hs.ids b hlt)⟩

namespace Running

/-- The blocks of a function stay in front of those that are added. -/
theorem layout_prefix (h : Running p s l body s₀ f pr) (g : FnId) :
    ∃ rest, s.blk.layout g = s₀.layout g ++ rest := by
  by_cases hg : g = f
  · obtain ⟨rest, hrest⟩ := h.own.entry
    rw [start_func] at hrest
    exact ⟨_, hg ▸ hrest⟩
  · exact ⟨[], by rw [h.layout hg, List.append_nil]⟩

/-- The end of a function removes none of the blocks that were there before it. -/
theorem erased_own (h : Running p s l body s₀ f pr) (hb : s.erased p = some b) :
    s₀.nextBlock ≤ b := by
  obtain ⟨-, k, -, hk, -⟩ := h.erased_iff.mp hb
  exact (h.own.tracked k b hk).1

/-- The end of a function leaves the blocks of the others in front. -/
theorem finish_prefix (h : Running p s l body s₀ f pr) (g : FnId) :
    ∃ rest, (s.finish p).blk.layout g = s₀.layout g ++ rest := by
  obtain ⟨rest, hrest⟩ := h.layout_prefix g
  refine ⟨rest.filter fun b => s.erased p ≠ some b, ?_⟩
  rw [finish_layout, hrest, List.filter_append, List.filter_eq_self.mpr]
  intro b hb
  refine decide_eq_true fun he => ?_
  have := h.laid g b hb
  have := h.erased_own he
  omega

/-- A function leaves the bodies of the others. -/
theorem finish_body (h : Running p s l body s₀ f pr) (hs : Linked s₀ s.dests)
    (hb : Body s₀ g k) : Body (s.finish p).blk g k := by
  have hkept := (kept_keeps p s₀ s.dests).finish s l body s₀ f pr h (.refl _ _)
  refine hb.kept hs h.laid hkept fun b rest hlay => ?_
  obtain ⟨rest', hrest⟩ := h.finish_prefix g
  exact ⟨rest ++ rest', by rw [hrest, hlay, List.cons_append]⟩

/-- The entry block of a function is not removed. -/
theorem finish_entry (h : Running p s l body s₀ f pr) (hlt : l.st < l.addr)
    (hempty : s₀.layout f = []) :
    ∃ rest, (s.finish p).blk.layout f = s₀.nextBlock :: rest := by
  obtain ⟨main, key, hinv, -⟩ := h.inv
  obtain ⟨rest, hrest⟩ := h.own.entry
  rw [start_func, hempty] at hrest
  refine ⟨rest.filter fun b => s.erased p ≠ some b, ?_⟩
  rw [finish_layout, hrest, List.nil_append, List.filter_cons_of_pos]
  refine decide_eq_true fun he => ?_
  obtain ⟨-, k, hle, hk, -⟩ := h.erased_iff.mp he
  obtain rfl := hinv.heap.find_inj h.find_entry hk
  omega

/-- **The body of a function**, when it ends. -/
theorem new_body (h : Running p s l body s₀ f pr) (hlt : l.st < l.addr)
    (hempty : s₀.layout f = []) : Body (s.finish p).blk f l.st := by
  obtain ⟨rest, hrest⟩ := h.finish_entry hlt hempty
  exact ⟨s₀.nextBlock, rest, hrest, h.begins (.refl _ _) h.find_entry hlt⟩

end Running

theorem body_keeps (p : Program) (f : FnId) (k : Nat) :
    Keeps p fun s d => Linked s d ∧ Body s f k :=
  ⟨fun _ _ _ ⟨hs, b, rest, hl, hb⟩ =>
      ⟨(linked_keeps p).bld _ _ _ hs, b, rest, hl, hb.addr, hb.first⟩,
    fun _ _ _ _ ⟨hs, b, rest, hl, hb⟩ =>
      ⟨(linked_keeps p).image _ _ _ _ hs, b, rest, hl, hb.addr, hb.first⟩,
    fun _ _ _ _ _ _ h ⟨hs, hb⟩ => ⟨h.finish_linked hs, h.finish_body hs hb⟩⟩

/-- A body stays. -/
theorem Bodied.step (h : Bodied p f k c) (hs : Step p c c') : Bodied p f k c' :=
  Between.step (body_keeps p f k) h hs

theorem Bodied.idle (h : Bodied p f k c) (hl : c.loop = none) : Body c.s.blk f k := (h.1 hl).2

/-- **A function that ends has a body.** -/
theorem Vacated.ended (h : Vacated p c) (hs : Step p c c') (hl : c.loop = some l)
    (hend : Cuts c.s l ∨ l.stop ≤ l.addr) (hlt : l.st < l.addr) :
    Bodied p c.s.blk.func.f l.st c' := by
  obtain ⟨body, s₀, f, pr, hr, hlinked, hempty⟩ := h l hl
  rw [hr.func_f]
  exact hs.ended hl hend ⟨hr.finish_linked hlinked, hr.new_body hlt hempty⟩

/-- A step keeps the function in progress on its own, if the one that it enters is. -/
theorem Vacated.step (h : Vacated p c) (hf : Fresh p c) (hb : Between p Linked c)
    (hu : Unfilled c) (hs : Step p c c') : Vacated p c' := by
  intro l hl
  by_cases hfirst : l.addr = l.st
  · obtain ⟨body, s₀, f, pr, hr, hlinked, -, hempty⟩ := hs.enters hf hb hl hfirst
    exact ⟨body, s₀, f, pr, hr, hlinked, hempty hu⟩
  · cases hs with
    | @turn l₁ loop lt stays next keeps dests =>
      obtain ⟨body, s₀, f, pr, hr, hlinked, hempty⟩ := h l₁ loop
      obtain rfl := Option.some.inj (next.symm.trans hl)
      exact ⟨body, s₀, f, pr, (keeps _ _ _ _ hr).2, dests ▸ hlinked, hempty⟩
    | leave loop le next =>
      rw [next] at hl
      cases hl
    | cut loop cuts registered known blk dests fnOf next st entered =>
      obtain rfl := Option.some.inj (next.symm.trans hl)
      exact absurd (entered.addr.trans entered.st.symm) hfirst
    | enter loop named fnOf blk dests next entered =>
      obtain rfl := Option.some.inj (next.symm.trans hl)
      exact absurd (entered.addr.trans entered.st.symm) hfirst
    | idle loop next =>
      rw [next] at hl
      cases hl

/-- **An invariant of runs** whose steps leave every function its own blocks. -/
theorem Config.Reach.vacated {good I : Config → Prop} {pending : Map Nat PendingReloc}
    {sections : String → List Constant} (hp : p.Aligned)
    (hgood : ∀ c, good c → Apart p c ∧ Unfilled c) (h0 : I (Config.init pending sections))
    (hI : ∀ c c', Fresh p c → Vacated p c → good c → c.step p = .ok c' → Step p c c' → I c → I c')
    (h : Config.Reach p good pending sections c) :
    (Fresh p c ∧ Between p Linked c ∧ Vacated p c) ∧ I c := by
  unfold Config.Reach at h
  induction h with
  | start =>
    exact ⟨⟨.init pending sections, ⟨fun _ => .init, fun _ hl => (by cases hl)⟩,
      fun _ hl => (by cases hl)⟩, h0⟩
  | step _ hg hs ih =>
    obtain ⟨⟨hf, hb, hv⟩, hi⟩ := ih
    obtain ⟨hapart, hunfilled⟩ := hgood _ hg
    obtain ⟨hstep, hf'⟩ := hf.step hp (hf.clean hapart) hs
    exact ⟨⟨hf', hb.step (linked_keeps p) hstep, hv.step hf hb hunfilled hstep⟩,
      hI _ _ hf hv hg hs hstep hi⟩

end RiscvSbt.Context
