import Mathlib.Data.List.Chain
import Mathlib.Order.Bounds.Basic
import RiscvSbt.Context.Registry

/-! Functions that a call made known are found by the loop.

While a function is translated, `_nextFuncAddr` is to be the first function known in the
rest of its range (`Finds`). Two kinds of steps lose it. A function that starts where
`_nextFuncAddr` points leaves it there, since `_ctx->addr` is still that of the last
instruction of the function before; and a call of its own address moves it back. A run
without such steps (`Orderly`) finds every function. -/
namespace RiscvSbt.Context
open Library State

/-- The functions known in the rest of the range of a loop, but for the one that the loop
is in. -/
def Ahead (s : State) (l : Loop) : Set Nat :=
  {g | Registered s g ∧ l.addr ≤ g ∧ g ≠ l.st ∧ g < l.stop}

def Finds (s : State) (l : Loop) : Prop :=
  (Ahead s l).Nonempty → IsLeast (Ahead s l) (s.nextFuncAddr 0)

/-- No function starts between the last translated instruction and `a`. -/
structure Passed (s : State) (a : Nat) : Prop where
  le : s.addr ≤ a
  none : ∀ g, Registered s g → s.addr < g → a ≤ g

/-- The next step loses no function. -/
structure Orderly (sec : Section) (c : Config) : Prop where
  /-- A function that starts where `_nextFuncAddr` points has none known in its range. -/
  start : ∀ F ∈ c.todo.head?, c.loop = none → F.start % 4 = 0 ∧
    (c.s.nextFuncAddr 0 = F.start → ∀ g, Registered c.s g → F.start < g → F.stop ≤ g)
  /-- A function that is made up at the call itself has none known behind it. -/
  call : ∀ l, c.loop = some l → l.addr < l.stop → ∀ t, callee? (sec.inst l.addr).act = some t →
    t % 4 = 0 ∧ (t = l.addr → ¬Registered c.s t → ∀ g, Registered c.s g → l.addr < g → l.stop ≤ g)

/-- Functions that follow each other. -/
def Follows (F G : Func) : Prop := F.start ≤ F.stop ∧ F.stop = G.start

/-- The functions known in the rest of a range, at an instruction of it. -/
def Later (s : State) (l : Loop) : Set Nat :=
  {g | Registered s g ∧ l.addr < g ∧ g < l.stop}

/-- A function that is known is found: also right after the call that made it known, and
when the loop gets there. -/
structure Discovers (p : Program) (c : Config) (l : Loop) : Prop where
  finds : Finds c.s l
  /-- Where the loop does not switch, the cursor is at the first of the later functions. -/
  least : (l.addr ≠ l.st → l.addr ≠ c.s.nextFuncAddr 0) → (Later c.s l).Nonempty →
    IsLeast (Later c.s l) (c.s.nextFuncAddr 0)
  /-- The loop goes on as the loop of the function that it has reached. -/
  switches : Registered c.s l.addr → l.addr ≠ l.st → l.addr < l.stop → ∀ c', c.step p = .ok c' →
    c'.loop = some ⟨l.addr, l.stop, l.addr⟩ ∧ c.s.funcByAddr.get? l.addr = some c'.s.cur

structure Inside (s : State) (l : Loop) (todo : List Func) : Prop where
  finds : Finds s l
  passed : Passed s l.addr
  aligned : l.addr % 4 = 0
  le : l.st ≤ l.addr
  next : ∀ F ∈ todo.head?, l.stop = F.start ∧ s.addr ≤ l.stop

structure Inv (c : Config) : Prop where
  keyed : Keyed c.s
  sec : c.s.sec = 0
  next : c.next ≤ 1
  /-- Nothing is known before the section is scanned. -/
  unopened : c.next = 0 → c.loop = none ∧ c.todo = [] ∧ c.s.addr = 0 ∧ ∀ a, ¬Registered c.s a
  aligned : ∀ a, Registered c.s a → a % 4 = 0
  known : c.s.nextFuncAddr 0 = 0 ∨ Registered c.s (c.s.nextFuncAddr 0)
  chain : c.todo.IsChain Follows
  between : c.loop = none → ∀ F ∈ c.todo.head?, Passed c.s F.start
  inside : ∀ l, c.loop = some l → Inside c.s l c.todo

variable {p : Program} {sec : Section} {s t : State} {c c' : Config} {l l' : Loop}
  {todo : List Func} {F : Func} {obj : Obj} {a g : Nat}

/-! ### The scan -/

theorem delimit_chain (size : Nat) (rest : List Symbol) :
    (∀ sym, (sym :: rest).Pairwise (fun x y => x.addr ≤ y.addr) →
        (delimit size (some sym) rest).IsChain Follows ∧
          ∀ F ∈ (delimit size (some sym) rest).head?, F.start = sym.addr) ∧
      (rest.Pairwise (fun x y => x.addr ≤ y.addr) →
        (delimit size none rest).IsChain Follows) := by
  induction rest with
  | nil => exact ⟨fun sym _ => ⟨.singleton _, fun F hF => by cases hF; rfl⟩, fun _ => .nil⟩
  | cons next rest ih =>
    refine ⟨fun sym h => ?_, fun h => ?_⟩
    · obtain ⟨hle, h⟩ := List.pairwise_cons.mp h
      unfold delimit
      split
      · obtain ⟨hc, hhead⟩ := ih.1 next h
        refine ⟨List.isChain_cons.mpr ⟨fun F hF => ⟨?_, (hhead F hF).symm⟩, hc⟩,
          fun F hF => by cases hF; rfl⟩
        exact hle next List.mem_cons_self
      · refine ih.1 sym (List.pairwise_cons.mpr ⟨fun y hy => ?_, (List.pairwise_cons.mp h).2⟩)
        exact hle y (List.mem_cons_of_mem _ hy)
    · unfold delimit
      split
      · exact (ih.1 next h).1
      · exact ih.2 (List.pairwise_cons.mp h).2

theorem funcs_chain (h : sec.symbols.Pairwise fun x y => x.addr ≤ y.addr) :
    sec.funcs.IsChain Follows := by
  unfold Section.funcs
  split
  · exact (delimit_chain sec.size sec.symbols).2 h
  · exact .nil

/-! ### The cursor -/

/-- The cursor goes to the first function from `next` on, if it was not further on the way
there. -/
theorem nextAfter_least {x next : Nat} (hg : Registered s g) (hle : next ≤ g)
    (hmin : ∀ g', Registered s g' → next ≤ g' → g ≤ g') (haddr : s.addr ≤ g)
    (hN : s.addr < s.nextFuncAddr x → g ≤ s.nextFuncAddr x) : nextAfter s x next = g := by
  obtain ⟨o, ho⟩ := hg
  have hl : s.funcByAddr.lowerBound next = some (g, o) :=
    Map.lowerBound_eq_some.mpr ⟨ho, hle, fun k w hk hn => hmin k ⟨w, hk⟩ hn⟩
  have hkeep : ¬(g < s.addr ∨ s.addr < s.nextFuncAddr x ∧ s.nextFuncAddr x < g) := by
    rintro (h | ⟨h, h'⟩)
    · omega
    · have := hN h
      omega
  unfold nextAfter
  rw [hl]
  exact if_neg hkeep

theorem closest_eq (N addr nfa : Nat) :
    closest N addr (some nfa) = N ∨ closest N addr (some nfa) = nfa := by
  unfold closest
  dsimp only
  split
  · exact .inl rfl
  · exact .inr rfl

/-- The cursor stays, or goes to a function that is known. -/
theorem nextAfter_known (s : State) (x next : Nat) :
    nextAfter s x next = s.nextFuncAddr x ∨ Registered s (nextAfter s x next) := by
  unfold nextAfter
  cases hl : s.funcByAddr.lowerBound next with
  | none => exact .inl rfl
  | some i =>
    obtain ⟨k, o⟩ := i
    refine (closest_eq (s.nextFuncAddr x) s.addr k).imp id fun heq => ?_
    rw [Option.map_some, heq]
    exact ⟨o, (Map.lowerBound_eq_some.mp hl).1⟩

/-- The first function ahead, if there is any. -/
theorem exists_least {S : Set Nat} (h : S.Nonempty) : ∃ g, IsLeast S g := by
  classical
  exact ⟨Nat.find h, Nat.find_spec h, fun a ha => Nat.find_min' h ha⟩

/-- Starting a function finds the first one known in its range. -/
theorem Finds.start {st stop : Nat} (haligned : ∀ a, Registered s a → a % 4 = 0)
    (hst : st % 4 = 0) (haddr : s.addr ≤ st)
    (hN : ∀ g ∈ Ahead s ⟨st, stop, st⟩, s.addr < s.nextFuncAddr 0 → st < s.nextFuncAddr 0 ∧
      Registered s (s.nextFuncAddr 0)) :
    (Ahead s ⟨st, stop, st⟩).Nonempty →
      IsLeast (Ahead s ⟨st, stop, st⟩) (nextAfter s 0 (st + 4)) := by
  intro hne
  obtain ⟨g, hg, hmin⟩ := exists_least hne
  obtain ⟨hreg, hle, hneq, hlt⟩ := id hg
  have hge : ∀ a, Registered s a → st < a → st + 4 ≤ a := by
    intro a ha hlt
    have := haligned a ha
    omega
  have hleast : ∀ a, Registered s a → st < a → g ≤ a := by
    intro a ha hsta
    by_contra hag
    have hag' : a ∈ Ahead s ⟨st, stop, st⟩ := ⟨ha, by simp only; omega, by simp only; omega,
      by simp only at hlt ⊢; omega⟩
    exact hag (hmin hag')
  simp only at hle hneq hlt
  rw [nextAfter_least hreg (hge g hreg (by omega)) (fun a ha hsta => hleast a ha (by omega))
    (by omega) fun h => ?_]
  · exact ⟨hg, hmin⟩
  · obtain ⟨hlt, hN⟩ := hN g hg h
    exact hleast _ hN hlt

/-! ### Steps -/

theorem Inv.translateFunc (h : Inv c) (hgood : Orderly sec c) (hl : c.loop = none)
    (htodo : c.todo = F :: todo) (hs : c.s.translateFunc p F = .ok (t, l)) :
    Inv ⟨t, c.next, todo, some l⟩ := by
  let obj : Obj := {name := F.name, sec := c.s.sec, addr := F.start, stop := some F.stop}
  let s₁ := (c.s.newFunction obj).addFunc c.s.nextObj obj
  have hk₁ : Keyed s₁ := h.keyed.addFunc rfl
  have hreg₁ : ∀ a, Registered s₁ a ↔ a = F.start ∨ Registered c.s a := fun a => addFunc_registered
  obtain ⟨obj', hobj', hstop, hst, haddr, hnext, ht, hsec, -, hk, hreg⟩ := translate_ok hk₁ hs
  obtain ⟨-, rfl⟩ | ⟨hne, -⟩ := addFunc_objs hobj'
  case inr => exact absurd rfl hne
  obtain ⟨st, stop, addr⟩ := l
  obtain rfl : F.start = st := hst.symm
  obtain rfl : F.start = addr := haddr.symm
  obtain rfl : F.stop = stop := Option.some.inj hstop
  have hmem : F ∈ c.todo.head? := by rw [htodo]; rfl
  obtain ⟨hmod, hpoint⟩ := hgood.start F hmem hl
  have hpassed := h.between hl F hmem
  have hsec0 : c.s.sec = 0 := h.sec
  have haligned : ∀ a, Registered s₁ a → a % 4 = 0 := by
    intro a ha
    rcases (hreg₁ a).mp ha with rfl | ha
    · exact hmod
    · exact h.aligned a ha
  have hN : t.nextFuncAddr 0 = nextAfter s₁ 0 (F.start + 4) := by
    rw [hnext, hsec0]
    exact Function.update_self ..
  have hfinds : Finds t ⟨F.start, F.stop, F.start⟩ := by
    have hahead : Ahead t ⟨F.start, F.stop, F.start⟩ = Ahead s₁ ⟨F.start, F.stop, F.start⟩ := by
      ext g
      simp only [Ahead, Set.mem_ofPred_eq, hreg]
    unfold Finds
    rw [hahead, hN]
    refine Finds.start haligned hmod hpassed.le fun g hg hlt => ?_
    -- The cursor is at a known function, not before the start, and not at it either.
    have hknown : Registered c.s (c.s.nextFuncAddr 0) := by
      refine h.known.resolve_left fun h0 => ?_
      have hlt : c.s.addr < c.s.nextFuncAddr 0 := hlt
      omega
    refine ⟨lt_of_le_of_ne (hpassed.none _ hknown hlt) fun heq => ?_, (hreg₁ _).mpr (.inr hknown)⟩
    obtain ⟨hgreg, hle, hne, hgstop⟩ := hg
    have hgreg' := ((hreg₁ g).mp hgreg).resolve_left hne
    exact absurd hgstop (not_lt.mpr (hpoint heq.symm g hgreg' (lt_of_le_of_ne hle (Ne.symm hne))))
  have hchain := h.chain
  rw [htodo] at hchain
  refine ⟨hk, hsec.trans hsec0, h.next, fun h0 => ?_, fun a ha => haligned a ((hreg a).mp ha), ?_,
    hchain.tail, fun h => (nomatch h), ?_⟩
  · have := (h.unopened h0).2.1
    rw [htodo] at this
    exact nomatch this
  · show t.nextFuncAddr 0 = 0 ∨ _
    rw [hN, hreg]
    rcases nextAfter_known s₁ 0 (F.start + 4) with heq | hr
    · rw [heq]
      exact h.known.imp id fun hk => (hreg₁ _).mpr (.inr hk)
    · exact .inr hr
  · rintro l' hl'
    obtain rfl := Option.some.inj hl'
    refine ⟨hfinds, ⟨ht ▸ hpassed.le, fun g hg hlt => ?_⟩, hmod, le_refl _, fun G hG => ?_⟩
    · rcases (hreg₁ g).mp ((hreg g).mp hg) with rfl | hg
      · exact le_refl _
      · exact hpassed.none g hg (ht ▸ hlt)
    · obtain ⟨hle, heq⟩ := hchain.rel_head? hG
      refine ⟨heq, ?_⟩
      show t.addr ≤ F.stop
      rw [ht]
      exact le_trans hpassed.le hle

/-- A function is ahead of the next instruction if it is ahead of this one and does not
start here. -/
theorem Ahead.next (haligned : ∀ a, Registered s a → a % 4 = 0) (hmod : l.addr % 4 = 0) :
    g ∈ Ahead s {l with addr := l.addr + 4} ↔ g ∈ Ahead s l ∧ g ≠ l.addr := by
  constructor
  · rintro ⟨hreg, hle, hne, hlt⟩
    simp only at hle hne hlt
    exact ⟨⟨hreg, by omega, hne, hlt⟩, by omega⟩
  · rintro ⟨⟨hreg, hle, hne, hlt⟩, hneq⟩
    have := haligned g hreg
    exact ⟨hreg, by simp only; omega, hne, hlt⟩

/-- The loop goes on where it does not switch. -/
theorem Finds.next (h : Finds s l) (haligned : ∀ a, Registered s a → a % 4 = 0)
    (hmod : l.addr % 4 = 0) (hsw : l.addr ≠ l.st → l.addr ≠ s.nextFuncAddr 0) :
    Finds s {l with addr := l.addr + 4} := by
  rintro ⟨g, hg⟩
  have hnext := fun g => Ahead.next (g := g) haligned hmod
  obtain ⟨hN, hmin⟩ := h ⟨g, ((hnext g).mp hg).1⟩
  refine ⟨(hnext _).mpr ⟨hN, fun heq => ?_⟩, fun a ha => hmin ((hnext a).mp ha).1⟩
  obtain ⟨-, -, hne, -⟩ := hN
  exact hsw (heq ▸ hne) heq.symm

/-- A function that a call makes up is found, unless it is made up at the call itself. -/
theorem Finds.register {target : Nat} (h : Finds s {l with addr := l.addr + 4})
    (haddr : s.addr = l.addr) (hle : l.st ≤ l.addr)
    (haligned : ∀ a, Registered s a → a % 4 = 0) (hmod : l.addr % 4 = 0) (htarget : target % 4 = 0)
    (hknown : s.nextFuncAddr 0 = 0 ∨ Registered s (s.nextFuncAddr 0))
    (hnew : ¬Registered s target) (hreg : ∀ a, Registered t a ↔ a = target ∨ Registered s a)
    (hN : t.nextFuncAddr 0 = closest (s.nextFuncAddr 0) s.addr (some target))
    (hself : target = l.addr → ∀ g, Registered s g → l.addr < g → l.stop ≤ g) :
    Finds t {l with addr := l.addr + 4} := by
  have hahead : ∀ a, a ∈ Ahead t {l with addr := l.addr + 4} ↔
      a ∈ Ahead s {l with addr := l.addr + 4} ∨
        (a = target ∧ l.addr + 4 ≤ target ∧ target < l.stop) := by
    intro a
    simp only [Ahead, Set.mem_ofPred_eq, hreg]
    constructor
    · rintro ⟨rfl | ha, hle, hne, hlt⟩
      · exact .inr ⟨rfl, hle, hlt⟩
      · exact .inl ⟨ha, hle, hne, hlt⟩
    · rintro (⟨ha, hle, hne, hlt⟩ | ⟨rfl, hle', hlt⟩)
      · exact ⟨.inr ha, hle, hne, hlt⟩
      · exact ⟨.inl rfl, hle', by omega, hlt⟩
  have hne : s.nextFuncAddr 0 ≠ target ∨ s.nextFuncAddr 0 = 0 :=
    hknown.symm.imp_left fun hk heq => hnew (heq ▸ hk)
  rw [haddr, closest] at hN
  rintro ⟨g, hg⟩
  by_cases hne' : (Ahead s {l with addr := l.addr + 4}).Nonempty
  · -- The cursor is at the first function ahead, and a nearer one takes its place.
    obtain ⟨hfirst, hmin⟩ := h hne'
    obtain ⟨hr, hle', hst, hlt⟩ := id hfirst
    simp only at hle' hst hlt
    have hback : target ≠ l.addr := fun heq =>
      absurd (hself heq _ hr (by omega)) (not_le.mpr hlt)
    split at hN
    next hkeep =>
      rw [hN]
      refine ⟨(hahead _).mpr (.inl hfirst), fun a ha => ?_⟩
      rcases (hahead a).mp ha with ha | ⟨rfl, hle, -⟩
      · exact hmin ha
      · omega
    next hkeep =>
      rw [hN]
      refine ⟨(hahead _).mpr (.inr ⟨rfl, by omega, by omega⟩), fun a ha => ?_⟩
      rcases (hahead a).mp ha with ha | ⟨rfl, -⟩
      · have := hmin ha
        omega
      · exact le_refl _
  · -- Nothing was ahead, so the cursor was not in the rest of the range.
    have honly : ∀ a ∈ Ahead t {l with addr := l.addr + 4},
        a = target ∧ l.addr + 4 ≤ target ∧ target < l.stop := fun a ha =>
      ((hahead a).mp ha).resolve_left fun ha => hne' ⟨a, ha⟩
    obtain ⟨rfl, hle', hlt⟩ := honly g hg
    have hout : ¬(l.addr < s.nextFuncAddr 0 ∧ s.nextFuncAddr 0 < g) := by
      rintro ⟨hgt, hlt'⟩
      have hr := hknown.resolve_left (by omega)
      have := haligned _ hr
      exact hne' ⟨_, hr, by simp only; omega, by simp only; omega, by simp only; omega⟩
    rw [if_neg (not_or.mpr ⟨by omega, hout⟩)] at hN
    rw [hN]
    exact ⟨hg, fun a ha => (honly a ha).1 ▸ le_refl _⟩

theorem Inv.switch (h : Inv c) (hl : c.loop = some l) (hlt : l.addr < l.stop)
    (hobj : c.s.objs c.s.cur = some obj) (hat : l.addr = c.s.nextFuncAddr obj.sec)
    (hs : {c.s with addr := l.addr}.switch p obj l = .ok (t, l')) :
    Inv ⟨t, c.next, c.todo, some l'⟩ := by
  have hsec : obj.sec = 0 := (h.keyed.sec _ obj hobj).trans h.sec
  obtain ⟨-, -, hmod, -, hnext⟩ := h.inside l hl
  let s₁ : State := {c.s with addr := l.addr}
  have hk₁ : Keyed s₁ := ⟨h.keyed.fresh, h.keyed.addr, h.keyed.sec⟩
  obtain ⟨nextf, -, rfl, hn, haddr, hsec', -, hk, hreg⟩ := switch_ok hk₁ hobj hs
  have hN : t.nextFuncAddr 0 = nextAfter s₁ 0 (l.addr + 4) := by
    rw [hn, hsec]
    exact Function.update_self ..
  have hfinds : Finds t ⟨l.addr, l.stop, l.addr⟩ := by
    have hahead : Ahead t ⟨l.addr, l.stop, l.addr⟩ = Ahead s₁ ⟨l.addr, l.stop, l.addr⟩ := by
      ext g
      simp only [Ahead, Set.mem_ofPred_eq, hreg]
    unfold Finds
    rw [hahead, hN]
    -- The cursor is at the function that starts, so it moves on.
    refine Finds.start h.aligned hmod (le_refl _) fun g _ hlt => absurd hlt ?_
    rw [hsec] at hat
    exact not_lt.mpr (le_of_eq hat.symm)
  refine ⟨hk, hsec'.trans h.sec, h.next, fun h0 => ?_, fun a ha => h.aligned a ((hreg a).mp ha),
    ?_, h.chain, fun h => (nomatch h), ?_⟩
  · have := (h.unopened h0).1
    rw [hl] at this
    exact nomatch this
  · show t.nextFuncAddr 0 = 0 ∨ _
    rw [hN, hreg]
    rcases nextAfter_known s₁ 0 (l.addr + 4) with heq | hr
    · rw [heq]
      exact h.known
    · exact .inr hr
  · rintro l' hl'
    obtain rfl := Option.some.inj hl'
    have haddr : t.addr = l.addr := haddr
    refine ⟨hfinds, ⟨le_of_eq haddr, fun g _ hlt => ?_⟩, hmod, le_refl _, fun F hF => ?_⟩
    · exact le_of_lt (haddr ▸ hlt)
    · exact ⟨(hnext F hF).1, by rw [haddr]; exact le_of_lt hlt⟩

/-- What an instruction leaves behind, whether or not it called. -/
theorem Inv.goOn (h : Inv c) (hl : c.loop = some l) (hlt : l.addr < l.stop) (hk : Keyed t)
    (hsec : t.sec = 0) (haddr : t.addr = l.addr) (haligned : ∀ a, Registered t a → a % 4 = 0)
    (hknown : t.nextFuncAddr 0 = 0 ∨ Registered t (t.nextFuncAddr 0))
    (hfinds : Finds t {l with addr := l.addr + 4}) :
    Inv ⟨t, c.next, c.todo, some {l with addr := l.addr + 4}⟩ := by
  obtain ⟨-, -, hmod, hle, hnext⟩ := h.inside l hl
  refine ⟨hk, hsec, h.next, fun h0 => ?_, haligned, hknown, h.chain, fun h => (nomatch h), ?_⟩
  · have := (h.unopened h0).1
    rw [hl] at this
    exact nomatch this
  · rintro l' hl'
    obtain rfl := Option.some.inj hl'
    refine ⟨hfinds, ⟨?_, fun g hg hlt' => ?_⟩, ?_, ?_, fun F hF => ⟨(hnext F hF).1, ?_⟩⟩
    · show t.addr ≤ l.addr + 4
      omega
    · have := haligned g hg
      have hlt' : t.addr < g := hlt'
      show l.addr + 4 ≤ g
      omega
    · show (l.addr + 4) % 4 = 0
      omega
    · show l.st ≤ l.addr + 4
      omega
    · show t.addr ≤ l.stop
      omega

/-- The first section, and there is no other. -/
theorem sole (hp : p.sections = [sec]) {x : Nat} {sec' : Section} (h : p.sections[x]? = some sec') :
    x = 0 ∧ sec = sec' := by
  rw [hp] at h
  obtain ⟨hx, rfl⟩ := List.getElem?_eq_some_iff.mp h
  obtain rfl : x = 0 := Nat.lt_one_iff.mp hx
  exact ⟨rfl, rfl⟩

theorem Inv.turn (hp : p.sections = [sec]) (h : Inv c) (hgood : Orderly sec c)
    (hl : c.loop = some l) (hlt : l.addr < l.stop) (hs : c.s.turn p l = .ok (t, l')) :
    Inv ⟨t, c.next, c.todo, some l'⟩ := by
  obtain ⟨obj, hobj, ⟨-, hat, hsw⟩ | ⟨hne, rfl, sec', hsec', hi⟩⟩ := turn_ok hs
  · exact h.switch hl hlt hobj hat hsw
  have hsec : obj.sec = 0 := (h.keyed.sec _ obj hobj).trans h.sec
  rw [hsec] at hne
  obtain ⟨-, rfl⟩ := sole hp hsec'
  obtain ⟨hfinds, -, hmod, hle, -⟩ := h.inside l hl
  let s₁ : State := {c.s with addr := l.addr}
  have hk₁ : Keyed s₁ := ⟨h.keyed.fresh, h.keyed.addr, h.keyed.sec⟩
  have hfinds₁ : Finds s₁ {l with addr := l.addr + 4} := Finds.next hfinds h.aligned hmod hne
  obtain ⟨u, blk, rfl, -, ⟨-, rfl⟩ | ⟨target, cur, hcallee, -, hcall⟩⟩ := translateInstr_ok hi
  · exact h.goOn hl hlt ⟨hk₁.fresh, hk₁.addr, hk₁.sec⟩ h.sec rfl h.aligned h.known hfinds₁
  obtain ⟨o, v, f, hv, -, rfl⟩ := handleCall_ok hcall
  obtain ⟨htarget, hself⟩ := hgood.call l hl hlt target hcallee
  rcases getByAddr_ok hk₁ hv with ⟨-, rfl⟩ | ⟨hnew, hk, haddr, hsec', -, hreg, hn⟩
  · exact h.goOn hl hlt ⟨hk₁.fresh, hk₁.addr, hk₁.sec⟩ h.sec rfl h.aligned h.known hfinds₁
  have hN : v.nextFuncAddr 0 = closest (c.s.nextFuncAddr 0) l.addr (some target) := by
    have hsec : s₁.sec = 0 := h.sec
    rw [hn, hsec]
    exact Function.update_self ..
  refine h.goOn hl hlt ⟨hk.fresh, hk.addr, hk.sec⟩ (hsec'.trans h.sec) haddr (fun a ha => ?_) ?_ ?_
  · rcases (hreg a).mp ha with rfl | ha
    · exact htarget
    · exact h.aligned a ha
  · show v.nextFuncAddr 0 = 0 ∨ Registered v _
    rw [hN, hreg]
    rcases closest_eq (c.s.nextFuncAddr 0) l.addr target with heq | heq
    · rw [heq]
      exact h.known.imp id .inr
    · exact .inr (.inl heq)
  · exact Finds.register hfinds₁ rfl hle h.aligned hmod htarget h.known hnew hreg hN
      fun heq => hself heq hnew

theorem Inv.leave (h : Inv c) (hl : c.loop = some l) (hge : ¬l.addr < l.stop)
    (hs : c.s.leave p = .ok t) : Inv ⟨t, c.next, c.todo, none⟩ := by
  have hsame := Same.leave hs
  obtain ⟨-, hpassed, -, -, hnext⟩ := h.inside l hl
  refine ⟨hsame.keyed h.keyed, hsame.sec.trans h.sec, h.next, fun h0 => ?_,
    fun a ha => h.aligned a (hsame.registered.mp ha), ?_, h.chain, fun _ F hF => ?_,
    fun l hl => (nomatch hl)⟩
  · have := (h.unopened h0).1
    rw [hl] at this
    exact nomatch this
  · show t.nextFuncAddr 0 = 0 ∨ _
    rw [hsame.nextFuncAddr, hsame.registered]
    exact h.known
  · obtain ⟨hstop, hle⟩ := hnext F hF
    refine ⟨?_, fun g hg hlt => ?_⟩
    · show t.addr ≤ F.start
      rw [hsame.addr, ← hstop]
      exact hle
    · have hlt : t.addr < g := hlt
      rw [hsame.addr] at hlt
      have := hpassed.none g (hsame.registered.mp hg) hlt
      omega

/-- Every step but those that lose a function keeps the cursor right. -/
theorem Inv.step (hp : p.sections = [sec])
    (hsorted : sec.symbols.Pairwise fun x y => x.addr ≤ y.addr)
    (h : Inv c) (hgood : Orderly sec c) (hs : c.step p = .ok c') : Inv c' := by
  cases hl : c.loop with
  | some l =>
    obtain ⟨hlt, t, l', ht, rfl⟩ | ⟨hge, t, ht, rfl⟩ := step_loops hl hs
    · exact h.turn hp hgood hl hlt ht
    · exact h.leave hl (Nat.not_lt.mpr hge) ht
  | none =>
    cases htodo : c.todo with
    | cons F todo =>
      obtain ⟨t, l, ht, rfl⟩ := step_enters hl htodo hs
      exact h.translateFunc hgood hl htodo ht
    | nil =>
      obtain rfl | ⟨sec', hsec, rfl⟩ := step_idle hl htodo hs
      · exact h
      obtain ⟨hnext, rfl⟩ := sole hp hsec
      obtain ⟨-, -, haddr, hnone⟩ := h.unopened hnext
      refine ⟨⟨h.keyed.fresh, h.keyed.addr, fun o obj ho => ?_⟩, hnext,
        Nat.le_of_eq (congrArg (· + 1) hnext), fun h0 => absurd h0 (Nat.succ_ne_zero _), h.aligned,
        h.known, funcs_chain hsorted, fun _ F _ => ⟨?_, fun g hg => absurd hg (hnone g)⟩,
        fun l hl => (nomatch hl)⟩
      · show obj.sec = c.next
        rw [hnext]
        exact (h.keyed.sec o obj ho).trans h.sec
      · show c.s.addr ≤ F.start
        omega

theorem Inv.init (pending : Map Nat Block.PendingReloc)
    (sections : String → List Block.Constant) : Inv (Config.init pending sections) := by
  have hnone : ∀ a o, (Config.init pending sections).s.funcByAddr.get? a ≠ some o :=
    fun a o h => (nomatch h)
  refine ⟨⟨fun a o h => absurd h (hnone a o), fun a o _ h => absurd h (hnone a o),
    fun o obj h => (nomatch h)⟩, rfl, Nat.zero_le _, fun _ => ⟨rfl, rfl, rfl,
      fun a ⟨o, h⟩ => hnone a o h⟩,
    fun a ⟨o, h⟩ => absurd h (hnone a o), .inl rfl, .nil, fun _ F hF => (nomatch hF),
      fun l hl => (nomatch hl)⟩

theorem Inv.discovers (h : Inv c) (hl : c.loop = some l) : Discovers p c l := by
  obtain ⟨hfinds, -, -, hle, -⟩ := h.inside l hl
  -- Where the loop has reached a function, the cursor is at it.
  have hhere : Registered c.s l.addr → l.addr ≠ l.st → l.addr < l.stop →
      c.s.nextFuncAddr 0 = l.addr := by
    intro hreg hne hlt
    have hmem : l.addr ∈ Ahead c.s l := ⟨hreg, le_refl _, hne, hlt⟩
    obtain ⟨⟨-, hge, -⟩, hmin⟩ := hfinds ⟨_, hmem⟩
    exact le_antisymm (hmin hmem) hge
  refine ⟨hfinds, fun hsw hne => ?_, fun hreg hne hlt c' hs => ?_⟩
  · have hsub : ∀ g ∈ Later c.s l, g ∈ Ahead c.s l := by
      rintro g ⟨hreg, hgt, hlt⟩
      exact ⟨hreg, le_of_lt hgt, by omega, hlt⟩
    obtain ⟨g, hg⟩ := hne
    obtain ⟨⟨hreg, hge, hneq, hlt⟩, hmin⟩ := hfinds ⟨g, hsub g hg⟩
    refine ⟨⟨hreg, lt_of_le_of_ne hge fun heq => ?_, hlt⟩, fun a ha => hmin (hsub a ha)⟩
    exact hsw (heq ▸ hneq) heq
  · have hN := hhere hreg hne hlt
    obtain ⟨t, l', ht, rfl⟩ := step_turns hl hlt hs
    obtain ⟨obj, hobj, ⟨-, -, hsw⟩ | ⟨hno, -⟩⟩ := turn_ok ht
    · have hk : Keyed {c.s with addr := l.addr} := ⟨h.keyed.fresh, h.keyed.addr, h.keyed.sec⟩
      obtain ⟨nextf, hget, rfl, -, -, -, hcur, -⟩ := switch_ok hk hobj hsw
      exact ⟨rfl, hcur ▸ hget⟩
    · have hsec : obj.sec = 0 := (h.keyed.sec _ obj hobj).trans h.sec
      rw [hsec] at hno
      exact absurd hN.symm (hno hne)

/-- **Functions that are known are found.** In a translation of one section whose steps all
are orderly, `_nextFuncAddr` is the first function known in the rest of the range, and the
loop switches to it. -/
theorem known_discovered (p : Program) (sec : Section) (pending : Map Nat Block.PendingReloc)
    (sections : String → List Block.Constant) (hp : p.sections = [sec])
    (hsorted : sec.symbols.Pairwise fun x y => x.addr ≤ y.addr) (c : Config)
    (h : Config.Reach p (Orderly sec) pending sections c) (l : Loop) (hl : c.loop = some l) :
    Discovers p c l := by
  have hinv : Inv c := Run.invariant h (Inv.init pending sections)
    fun _ _ hinv hgood hs => Inv.step hp hsorted hinv hgood hs
  exact hinv.discovers hl

/-- A call from inside a function to its own middle is found. -/
def aheadSection : Section where
  size := 20
  symbols := [{name := "a", addr := 4}]
  inst
    | 4 => .call 1 12
    | _ => .ret 1

def aheadProgram : Program := {sections := [aheadSection]}

theorem call_ahead_discovered : ∃ c : Config, c.loop = some ⟨4, 20, 8⟩ ∧ Registered c.s 12 ∧
    Discovers aheadProgram c ⟨4, 20, 8⟩ := by
  have h₁ : ∃ c, iterate (Config.step aheadProgram) 1 (Config.init Map.empty fun _ => []) = .ok c ∧
    c.loop = none ∧ c.todo = [⟨"a", 4, 20⟩] ∧ c.s.nextFuncAddr 0 = 0 := ⟨_, rfl, rfl, rfl, rfl⟩
  have h₂ : ∃ c, iterate (Config.step aheadProgram) 2 (Config.init Map.empty fun _ => []) = .ok c ∧
    c.loop = some ⟨4, 20, 4⟩ := ⟨_, rfl, rfl⟩
  have h₃ : ∃ c, iterate (Config.step aheadProgram) 3 (Config.init Map.empty fun _ => []) = .ok c ∧
    c.loop = some ⟨4, 20, 8⟩ ∧ c.s.funcByAddr.get? 12 = some 1 := ⟨_, rfl, rfl, by decide⟩
  have hgood : ∀ m < 3, ∀ c, iterate (Config.step aheadProgram) m
      (Config.init Map.empty fun _ => []) = .ok c → Orderly aheadSection c := by
    intro m hm c hc
    match m with
    | 0 =>
      obtain rfl := Except.ok.inj hc
      exact ⟨fun F hF => (nomatch hF), fun l hl => (nomatch hl)⟩
    | 1 =>
      obtain ⟨d, hd, hl, htodo, hN⟩ := h₁
      obtain rfl := Except.ok.inj (hc.symm.trans hd)
      refine ⟨fun F hF _ => ?_, fun l h => absurd (hl.symm.trans h) nofun⟩
      rw [htodo] at hF
      obtain rfl := Option.some.inj hF
      exact ⟨rfl, fun h => absurd (hN.symm.trans h) (by decide)⟩
    | 2 =>
      obtain ⟨d, hd, hl⟩ := h₂
      obtain rfl := Except.ok.inj (hc.symm.trans hd)
      refine ⟨fun F _ h => absurd (hl.symm.trans h) nofun, fun l h _ t ht => ?_⟩
      obtain rfl := Option.some.inj (hl.symm.trans h)
      obtain rfl := Option.some.inj ht
      exact ⟨rfl, fun h => absurd h (by decide)⟩
  obtain ⟨c, hc, hl, hreg⟩ := h₃
  have hsorted : aheadSection.symbols.Pairwise fun x y => x.addr ≤ y.addr := .cons nofun .nil
  have h := known_discovered aheadProgram aheadSection Map.empty (fun _ => []) rfl hsorted c
    (Run.start.iterate 3 hgood hc) ⟨4, 20, 8⟩ hl
  exact ⟨c, hl, ⟨1, hreg⟩, h⟩

/-- A function `b` follows `a`, which calls it and then the middle of it. -/
def missedSection : Section where
  size := 24
  symbols := [{name := "a", addr := 0}, {name := "b", addr := 8}]
  inst
    | 0 => .call 1 8
    | 4 => .call 1 16
    | _ => .ret 1

/-- When `b` starts, the cursor stays at `b`, and the function known at 16 is missed. -/
theorem function_missed : ∃ c : Config,
    Config.Reach {sections := [missedSection]} (fun _ => True) Map.empty (fun _ => []) c ∧
      c.loop = some ⟨8, 24, 8⟩ ∧ 16 ∈ Later c.s ⟨8, 24, 8⟩ ∧ c.s.nextFuncAddr 0 = 8 ∧
      ¬Discovers {sections := [missedSection]} c ⟨8, 24, 8⟩ := by
  have hrun : ∃ c, iterate (Config.step {sections := [missedSection]}) 6
      (Config.init Map.empty fun _ => []) = .ok c ∧ c.loop = some ⟨8, 24, 8⟩ ∧
      c.s.funcByAddr.get? 16 = some 2 ∧ c.s.nextFuncAddr 0 = 8 := ⟨_, rfl, rfl, rfl, rfl⟩
  obtain ⟨c, hc, hl, hreg, hN⟩ := hrun
  have hlater : 16 ∈ Later c.s ⟨8, 24, 8⟩ := ⟨⟨2, hreg⟩, by decide, by decide⟩
  refine ⟨c, Run.start.iterate 6 (fun _ _ _ _ => trivial) hc, hl, hlater, hN, fun h => ?_⟩
  obtain ⟨⟨-, hlt, -⟩, -⟩ := h.least (fun h => absurd rfl h) ⟨16, hlater⟩
  rw [hN] at hlt
  exact lt_irrefl 8 hlt

end RiscvSbt.Context
