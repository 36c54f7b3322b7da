import RiscvSbt.Context.Bodies

/-! Where the code of a function of the module comes from.

An LLVM function holds the code of a place in a section when its first blocks are those that the
translation from that place on has made, up to where the range ended or was cut. -/
namespace RiscvSbt.Context
open Library Block State

/-- The LLVM function `f` holds the code translated from `a` on in the section `x`. -/
def Holds (p : Program) (x a : Nat) (f : FnId) (t : Block.State) (e : Nat → List Nat) : Prop :=
  ∃ s l s₀ pr rest, Running p s l (p.body x) s₀ f pr ∧ l.st = a ∧ a < l.addr ∧ s₀.layout f = [] ∧
    Kept (s.finish p).blk (s.finish p).dests t e ∧ t.layout f = (s.finish p).blk.layout f ++ rest

/-- A function that was translated before holds its code, also while another one is. -/
def Held (p : Program) (x a : Nat) (f : FnId) : Config → Prop := Between p (Holds p x a f)

variable {p : Program} {s : State} {l : Loop} {c c' : Config} {obj : Obj} {s₀ t : Block.State}
  {f : FnId} {pr x a : Nat} {e : Nat → List Nat}

/-- What a function holds begins with the instruction at the place. -/
theorem Holds.body (h : Holds p x a f t e) : Body t f a := by
  obtain ⟨s, l, s₀, pr, rest, hr, rfl, hlt, hempty, hk, hlay⟩ := h
  obtain ⟨rest', hentry⟩ := hr.finish_entry hlt hempty
  exact ⟨s₀.nextBlock, rest' ++ rest, by rw [hlay, hentry, List.cons_append],
    hr.begins hk hr.find_entry hlt⟩

theorem Running.holds (h : Running p s l (p.body x) s₀ f pr) (hlt : l.st < l.addr)
    (hempty : s₀.layout f = []) : Holds p x l.st f (s.finish p).blk (s.finish p).dests :=
  ⟨s, l, s₀, pr, [], h, rfl, hlt, hempty, .refl _ _, (List.append_nil _).symm⟩

theorem holds_keeps (p : Program) (x a : Nat) (f : FnId) : Keeps p (Holds p x a f) := by
  refine ⟨fun t e bld h => ?_, fun t e _ _ h => ?_, fun s l body s₀ g pr hr h => ?_⟩
  · obtain ⟨s, l, s₀, pr, rest, hr, ha, hlt, hempty, hk, hlay⟩ := h
    exact ⟨s, l, s₀, pr, rest, hr, ha, hlt, hempty, (kept_keeps p _ _).bld _ _ _ hk, hlay⟩
  · obtain ⟨s, l, s₀, pr, rest, hr, ha, hlt, hempty, hk, hlay⟩ := h
    exact ⟨s, l, s₀, pr, rest, hr, ha, hlt, hempty, (kept_keeps p _ _).image _ _ _ _ hk, hlay⟩
  · obtain ⟨s', l', s₀', pr', rest, hr', ha, hlt, hempty, hk, hlay⟩ := h
    obtain ⟨rest', hrest⟩ := hr.finish_prefix f
    refine ⟨s', l', s₀', pr', rest ++ rest', hr', ha, hlt, hempty,
      (kept_keeps p _ _).finish s l body s₀ g pr hr hk, ?_⟩
    rw [hrest, hlay, List.append_assoc]

/-- What a function holds stays. -/
theorem Held.step (h : Held p x a f c) (hs : Step p c c') : Held p x a f c' :=
  Between.step (holds_keeps p x a f) h hs

theorem Held.idle (h : Held p x a f c) (hl : c.loop = none) : Holds p x a f c.s.blk c.s.dests :=
  h.1 hl

/-- **A function that ends holds its code.** -/
theorem Vacated.held (h : Vacated p c) (hs : Step p c c') (hl : c.loop = some l)
    (hobj : c.s.objs c.s.cur = some obj) (hend : Cuts c.s l ∨ l.stop ≤ l.addr)
    (hlt : l.st < l.addr) : Held p obj.sec l.st c.s.blk.func.f c' := by
  obtain ⟨body, s₀, f, pr, hr, -, hempty⟩ := h l hl
  obtain rfl := (hr.obj obj hobj).1
  rw [hr.func_f]
  exact hs.ended hl hend (hr.holds hlt hempty)

end RiscvSbt.Context
