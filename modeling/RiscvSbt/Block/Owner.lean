import RiscvSbt.Block.Loop
import RiscvSbt.Block.Outer

/-! Who owns what.

Translating a function leaves the blocks and the instructions of other functions alone, and
what it makes is its own. `Own` says this of every state of the loop, counted from the state
`s₁` that `start` leaves, in which there is only the entry block `n`: that one stays the first
of the layout and keeps the prologue at its head. `Since` says what little has changed since
another state of the loop. -/
namespace RiscvSbt.Block
open Library State

/-- The entry block `n` of a function at `st`, behind the blocks `L` of its LLVM function. -/
structure Base (n st : Nat) (L : List Nat) (s : State) : Prop where
  nextBlock : s.nextBlock = n + 1
  insert : s.bld.insertBlock = n
  find : ∀ k, s.findBB k = if k = st then some n else none
  ubbMap : s.func.ubbMap = Map.empty
  tag : (s.bbs n).tag = (s.func.f, some st, false)
  ids : ∀ i ∈ (s.bbs n).insts, i.id < s.nextInstr
  quiet : Quiet s (s.bbs n).insts
  map : (s.bbs n).instrMap = Map.empty
  nextBB : s.func.nextBB = 0
  indBrs : s.func.indBrs = []
  indBBs : s.func.indBBs = []
  layout : s.layout s.func.f = L ++ [n]
  before : ∀ b ∈ L, b < n
  others : ∀ g, g ≠ s.func.f → ∀ b ∈ s.layout g, b < n

/-- What building code leaves alone, but for the words of labels. -/
structure Since (u s : State) : Prop where
  nextBlock : u.nextBlock ≤ s.nextBlock
  nextInstr : u.nextInstr ≤ s.nextInstr
  first : ∀ i, s.bld.first = some i → u.bld.first = some i ∨ u.nextInstr ≤ i
  tag : ∀ b, b < u.nextBlock → (s.bbs b).tag = (u.bbs b).tag
  pending : s.pending = u.pending
  sections : s.sections = u.sections
  indBBs : s.func.indBBs = u.func.indBBs

structure Own (n st : Nat) (L : List Nat) (s₁ u s : State) : Prop where
  base : Base n st L s₁
  since : Since u s
  fn : s.func.f = s₁.func.f
  insert : n ≤ s.bld.insertBlock ∧ s.bld.insertBlock < s.nextBlock
  nextInstr : s₁.nextInstr ≤ s.nextInstr
  own : ∀ b, n ≤ b → b < s.nextBlock → (s.bbs b).f = s₁.func.f
  tracked : ∀ k b, s.findBB k = some b → n ≤ b ∧ b < s.nextBlock ∧ (s.bbs b).addr = some k
  helper : ∀ a b, b ∈ s.ubbs a → n ≤ b ∧ b < s.nextBlock ∧ (s.bbs b).addr = none
  filled : ∀ a, s.func.ubbMap.get? a ≠ some []
  bbs : ∀ b, b < n → s.bbs b = s₁.bbs b
  marks : ∀ i, i < s₁.nextInstr → s.marks i = s₁.marks i
  laid : ∀ f, ∀ b ∈ s.layout f, b < s.nextBlock
  layout : ∀ g, g ≠ s₁.func.f → s.layout g = s₁.layout g
  entry : ∃ rest, s.layout s₁.func.f = L ++ n :: rest
  head : (s.bbs n).tag = (s₁.func.f, some st, false)
  pre : (s₁.bbs n).insts <+: (s.bbs n).insts
  mapped : ∀ b, n ≤ b → b < s.nextBlock → ∀ a i, (s.bbs b).instrMap.get? a = some i →
    s₁.nextInstr ≤ i
  indirect : ∀ b, n ≤ b → b < s.nextBlock → ∀ i ∈ (s.bbs b).insts, i.kind = .indBr →
    i.id ∈ s.func.indBrs
  noted : ∀ i ∈ s.func.indBrs, s₁.nextInstr ≤ i ∧ i < s.nextInstr
  cursor : s.func.nextBB = 0 ∨ st < s.func.nextBB

variable {opts : Options} {n st : Nat} {L : List Nat} {s₁ u s t : State} {addr : Nat}

theorem Since.refl (s : State) : Since s s :=
  ⟨le_refl _, le_refl _, fun _ hi => .inl hi, fun _ _ => rfl, rfl, rfl, rfl⟩

theorem Since.trans {v : State} (h : Since u s) (g : Since s v) : Since u v := by
  refine ⟨le_trans h.nextBlock g.nextBlock, le_trans h.nextInstr g.nextInstr, fun i hi => ?_,
    fun b hb => (g.tag b (lt_of_lt_of_le hb h.nextBlock)).trans (h.tag b hb),
    g.pending.trans h.pending, g.sections.trans h.sections, g.indBBs.trans h.indBBs⟩
  rcases g.first i hi with hi | hle
  · exact h.first i hi
  · exact .inr (le_trans h.nextInstr hle)

/-! ### Layouts -/

/-- Blocks are put next to a block that is not there. -/
theorem flatMap_notMem {l : List Nat} {b : Nat} {f : Nat → List Nat} (hf : ∀ x, x ≠ b → f x = [x])
    (h : b ∉ l) : l.flatMap f = l := by
  induction l with
  | nil => rfl
  | cons x l ih =>
    rw [List.flatMap_cons, hf x (List.ne_of_not_mem_cons h).symm,
      ih (List.not_mem_of_not_mem_cons h)]
    rfl

namespace Own

theorem lt_nextBlock (h : Own n st L s₁ u s) : n < s.nextBlock :=
  lt_of_le_of_lt h.insert.1 h.insert.2

theorem head_addr (h : Own n st L s₁ u s) : (s.bbs n).addr = some st :=
  congrArg (fun x : FnId × Option Nat × Bool => x.2.1) h.head

/-- Counted from where it is now. -/
theorem rebase (h : Own n st L s₁ u s) : Own n st L s₁ s s := {h with since := .refl s}

/-- Counted from an earlier state. -/
theorem after {v : State} (h : Own n st L s₁ u s) (g : Since v u) : Own n st L s₁ v s :=
  {h with since := g.trans h.since}

/-- A block is put next to one that the function made. -/
theorem flatMap (h : Own n st L s₁ u s) (b nb : Nat) (f : Nat → List Nat) (hb : n ≤ b)
    (hf : ∀ x, x ≠ b → f x = [x]) (hself : ∀ x ∈ f b, x = b ∨ x = nb)
    (hentry : b = n → ∃ r, f b = b :: r) :
    (∀ g, g ≠ s₁.func.f → (s.layout g).flatMap f = s₁.layout g) ∧
      (∃ rest, (s.layout s₁.func.f).flatMap f = L ++ n :: rest) ∧
      ∀ g, ∀ x ∈ (s.layout g).flatMap f, x ∈ s.layout g ∨ x = nb := by
  refine ⟨fun g hg => ?_, ?_, fun g x hx => ?_⟩
  · rw [h.layout g hg]
    refine flatMap_notMem hf fun hmem => ?_
    have := h.base.others g hg b hmem
    omega
  · obtain ⟨rest, hrest⟩ := h.entry
    have hL : b ∉ L := fun hmem => by
      have := h.base.before b hmem
      omega
    rw [hrest, List.flatMap_append, List.flatMap_cons, flatMap_notMem hf hL]
    by_cases hbe : b = n
    · obtain ⟨r, hr⟩ := hentry hbe
      rw [← hbe, hr]
      exact ⟨r ++ rest.flatMap f, by simp⟩
    · rw [hf _ (Ne.symm hbe)]
      exact ⟨rest.flatMap f, rfl⟩
  · obtain ⟨y, hy, hx⟩ := List.mem_flatMap.mp hx
    by_cases hyb : y = b
    · subst hyb
      rcases hself x hx with rfl | rfl
      · exact .inl hy
      · exact .inr rfl
    · rw [hf y hyb] at hx
      exact .inl (List.mem_singleton.mp hx ▸ hy)

/-! ### Filling blocks -/

/-- The blocks stay, only what is in them grows. -/
theorem write (h : Own n st L s₁ u s) (hf : t.func.f = s.func.f)
    (hm : t.func.bbMap = s.func.bbMap) (hu : t.func.ubbMap = s.func.ubbMap)
    (hb : t.nextBlock = s.nextBlock) (hl : t.layout = s.layout) (hi : s.nextInstr ≤ t.nextInstr)
    (hins : n ≤ t.bld.insertBlock ∧ t.bld.insertBlock < s.nextBlock)
    (hcur : t.func.nextBB = 0 ∨ st < t.func.nextBB)
    (hside : t.pending = s.pending ∧ t.sections = s.sections ∧ t.func.indBBs = s.func.indBBs)
    (hfirst : ∀ i, t.bld.first = some i → s.bld.first = some i ∨ s.nextInstr ≤ i)
    (htag : ∀ b, (t.bbs b).tag = (s.bbs b).tag) (hold : ∀ b, b < n → t.bbs b = s.bbs b)
    (hmarks : ∀ i, i < s₁.nextInstr → t.marks i = s.marks i)
    (hpre : (s.bbs n).insts <+: (t.bbs n).insts)
    (hmap : ∀ b a i, (t.bbs b).instrMap.get? a = some i →
      (s.bbs b).instrMap.get? a = some i ∨ s₁.nextInstr ≤ i)
    (hind : ∀ b, ∀ i ∈ (t.bbs b).insts, i.kind = .indBr →
      i ∈ (s.bbs b).insts ∨ i.id ∈ t.func.indBrs)
    (hbrs : ∀ i ∈ s.func.indBrs, i ∈ t.func.indBrs)
    (hnew : ∀ i ∈ t.func.indBrs, i ∈ s.func.indBrs ∨ (s.nextInstr ≤ i ∧ i < t.nextInstr)) :
    Own n st L s₁ u t where
  base := h.base
  since := h.since.trans
    ⟨le_of_eq hb.symm, hi, hfirst, fun b _ => htag b, hside.1, hside.2.1, hside.2.2⟩
  fn := hf.trans h.fn
  insert := hb ▸ hins
  nextInstr := le_trans h.nextInstr hi
  own b hn hlt := (congrArg Prod.fst (htag b)).trans (h.own b hn (hb ▸ hlt))
  tracked k b hk := by
    unfold State.findBB at hk
    rw [hm] at hk
    obtain ⟨hn, hlt, ha⟩ := h.tracked k b hk
    exact ⟨hn, hb ▸ hlt,
      (congrArg (fun x : FnId × Option Nat × Bool => x.2.1) (htag b)).trans ha⟩
  helper a b ha := by
    unfold State.ubbs at ha
    rw [hu] at ha
    obtain ⟨hn, hlt, hnone⟩ := h.helper a b ha
    exact ⟨hn, hb ▸ hlt,
      (congrArg (fun x : FnId × Option Nat × Bool => x.2.1) (htag b)).trans hnone⟩
  filled a := by
    rw [hu]
    exact h.filled a
  bbs b hlt := (hold b hlt).trans (h.bbs b hlt)
  marks i hlt := (hmarks i hlt).trans (h.marks i hlt)
  laid f b hb' := by
    rw [hl] at hb'
    rw [hb]
    exact h.laid f b hb'
  layout g hg := by
    rw [hl]
    exact h.layout g hg
  entry := by
    rw [hl]
    exact h.entry
  head := (htag n).trans h.head
  pre := h.pre.trans hpre
  mapped b hn hlt a i hget := by
    rcases hmap b a i hget with hget | hle
    · exact h.mapped b hn (hb ▸ hlt) a i hget
    · exact hle
  indirect b hn hlt i hmem hk := by
    rcases hind b i hmem hk with hmem | hbr
    · exact hbrs _ (h.indirect b hn (hb ▸ hlt) i hmem hk)
    · exact hbr
  noted i hi' := by
    have := h.nextInstr
    rcases hnew i hi' with hold | hnew
    · have := h.noted i hold
      omega
    · omega
  cursor := hcur

/-- The cursor or a list of the function, the builder's place. -/
theorem note (h : Own n st L s₁ u s) (hf : t.func.f = s.func.f) (hm : t.func.bbMap = s.func.bbMap)
    (hu : t.func.ubbMap = s.func.ubbMap) (hbrs : t.func.indBrs = s.func.indBrs)
    (hside : t.pending = s.pending ∧ t.sections = s.sections ∧ t.func.indBBs = s.func.indBBs)
    (hbbs : t.bbs = s.bbs) (hb : t.nextBlock = s.nextBlock) (hl : t.layout = s.layout)
    (hi : t.nextInstr = s.nextInstr) (hmarks : t.marks = s.marks)
    (hfirst : t.bld.first = s.bld.first ∨ t.bld.first = none)
    (hins : n ≤ t.bld.insertBlock ∧ t.bld.insertBlock < s.nextBlock)
    (hcur : t.func.nextBB = 0 ∨ st < t.func.nextBB) : Own n st L s₁ u t := by
  refine h.write hf hm hu hb hl (le_of_eq hi.symm) hins hcur hside (fun i hfi => ?_)
    (fun b => by rw [hbbs]) (fun b _ => by rw [hbbs]) (fun i _ => by rw [hmarks])
    (hbbs ▸ List.prefix_refl _) (fun b a i hget => ?_) (fun b i hmem _ => ?_) (fun i hmem => ?_)
    fun i hmem => .inl (hbrs ▸ hmem)
  · rcases hfirst with he | he
    · exact .inl (he ▸ hfi)
    · rw [he] at hfi
      cases hfi
  · rw [hbbs] at hget
    exact .inl hget
  · rw [hbbs] at hmem
    exact .inl hmem
  · rw [hbrs]
    exact hmem

theorem setInsertBlock (h : Own n st L s₁ u s) {b : Nat} (hb : n ≤ b ∧ b < s.nextBlock) :
    Own n st L s₁ u (s.setInsertBlock b) :=
  h.note rfl rfl rfl rfl ⟨rfl, rfl, rfl⟩ rfl rfl rfl rfl rfl (.inl rfl) hb h.cursor

theorem reset (h : Own n st L s₁ u s) : Own n st L s₁ u s.reset :=
  h.note rfl rfl rfl rfl ⟨rfl, rfl, rfl⟩ rfl rfl rfl rfl rfl (.inr rfl) h.insert h.cursor

theorem updateNextBB (h : Own n st L s₁ u s) {c : Nat} (hc : st < c) :
    Own n st L s₁ u (s.updateNextBB c) := by
  rw [Mid.updateNextBB_eq]
  exact h.note rfl rfl rfl rfl ⟨rfl, rfl, rfl⟩ rfl rfl rfl rfl rfl (.inl rfl) h.insert (.inr hc)

/-- Emitting, an indirect branch being noted down. -/
theorem emitNoted (h : Own n st L s₁ u s) (kind : Kind) {brs : List Nat}
    (hbrs : ∀ i ∈ s.func.indBrs, i ∈ brs) (hkind : kind = .indBr → s.nextInstr ∈ brs)
    (hnew : ∀ i ∈ brs, i ∈ s.func.indBrs ∨ i = s.nextInstr) :
    Own n st L s₁ u {s.emit kind with func := {s.func with indBrs := brs}} := by
  have hne : ∀ b, b ≠ s.bld.insertBlock → (s.emit kind).bbs b = s.bbs b := fun b hb =>
    emit_bbs_of_ne hb
  have hself : (s.emit kind).bbs s.bld.insertBlock =
      {s.insertBB with insts := s.insertBB.insts ++ [⟨s.nextInstr, kind⟩]} :=
    Function.update_self _ _ _
  have hins := h.insert
  have hnext := h.nextInstr
  refine h.write rfl rfl rfl rfl rfl (Nat.le_succ _) h.insert h.cursor ⟨rfl, rfl, rfl⟩
    (fun i hi => ?_) (fun b => ?_) (fun b hb => ?_) (fun i hi => ?_) ?_ (fun b a i hget => ?_)
    (fun b i hmem hk => ?_) hbrs fun i hi => ?_
  · have hfirst : (s.emit kind).bld.first =
        if s.bld.first = none ∧ s.bld.updateFirst then some s.nextInstr else s.bld.first := rfl
    rw [show Builder.first _ = _ from hfirst] at hi
    split at hi
    · exact .inr (le_of_eq (Option.some.inj hi))
    · exact .inl hi
  · by_cases hb : b = s.bld.insertBlock
    · subst hb
      exact (congrArg BasicBlock.tag hself :)
    · exact congrArg BasicBlock.tag (hne b hb)
  · exact hne b (by omega)
  · exact (emit_marks (lt_of_lt_of_le hi hnext) : (s.emit kind).marks i = s.marks i)
  · by_cases hb : n = s.bld.insertBlock
    · rw [hb]
      exact ⟨_, (congrArg BasicBlock.insts hself).symm⟩
    · have heq : (s.emit kind).bbs n = s.bbs n := hne n hb
      exact heq ▸ List.prefix_refl _
  · have hmap := (emit_bbs s kind b).2.2
    rw [show BasicBlock.instrMap _ = _ from hmap] at hget
    exact .inl hget
  · by_cases hb : b = s.bld.insertBlock
    · subst hb
      rw [show BasicBlock.insts _ = _ from congrArg BasicBlock.insts hself] at hmem
      rcases List.mem_append.mp hmem with hmem | hmem
      · exact .inl hmem
      · obtain rfl := List.mem_singleton.mp hmem
        exact .inr (hkind hk)
    · rw [show (s.emit kind).bbs b = s.bbs b from hne b hb] at hmem
      exact .inl hmem
  · refine (hnew i hi).imp_right fun heq => ?_
    rw [heq]
    exact ⟨le_refl _, Nat.lt_succ_self _⟩

theorem emit (h : Own n st L s₁ u s) {kind : Kind} (hkind : kind ≠ .indBr) :
    Own n st L s₁ u (s.emit kind) :=
  h.emitNoted kind (fun _ hi => hi) (fun hk => absurd hk hkind) fun _ hi => .inl hi

theorem ops (h : Own n st L s₁ u s) (c : Nat) : Own n st L s₁ u (s.ops c) := by
  induction c generalizing s with
  | zero => exact h
  | succ c ih => exact ih (h.emit nofun)

theorem br (h : Own n st L s₁ u s) (b : Nat) : Own n st L s₁ u (s.br b) := h.emit nofun

theorem condBr (h : Own n st L s₁ u s) (cond : Cond) (x y : Nat) :
    Own n st L s₁ u (s.condBr cond x y) := h.emit nofun

theorem handleIJump (h : Own n st L s₁ u s) : Own n st L s₁ u s.handleIJump :=
  h.emitNoted .indBr (fun _ hi => List.mem_append_left _ hi)
    (fun _ => List.mem_append_right _ (List.mem_singleton.mpr rfl))
    fun _ hi => (List.mem_append.mp hi).imp_right List.mem_singleton.mp

/-! ### New blocks -/

/-- A block at or behind an address that is not the first. -/
theorem lowerBound (h : Own n st L s₁ u s) {k : Nat} (hk : st < k) {b : Nat}
    (hb : s.lowerBoundBB k = some b) : n < b ∧ ∃ c, s.findBB c = some b := by
  unfold State.lowerBoundBB at hb
  cases hlb : s.func.bbMap.lowerBound k with
  | none =>
    rw [hlb] at hb
    cases hb
  | some i =>
    obtain ⟨c, b'⟩ := i
    rw [hlb] at hb
    obtain rfl := Option.some.inj hb
    obtain ⟨hget, hle, -⟩ := Map.lowerBound_eq_some.mp hlb
    obtain ⟨hn, -, haddr⟩ := h.tracked c b' hget
    refine ⟨lt_of_le_of_ne hn ?_, c, hget⟩
    rintro rfl
    have := Option.some.inj (h.head_addr.symm.trans haddr)
    omega

/-- The layouts with a new block at the end of the function, or before a block of it that is
not the entry. -/
theorem create_layout (h : Own n st L s₁ u s) {before : Option Nat}
    (hbefore : ∀ b, before = some b → n < b) :
    let layout := placeBefore s.layout s.func.f s.nextBlock before
    (∀ g, g ≠ s₁.func.f → layout g = s₁.layout g) ∧
      (∃ rest, layout s₁.func.f = L ++ n :: rest) ∧
      ∀ g, ∀ b ∈ layout g, b < s.nextBlock + 1 := by
  rw [h.fn]
  cases before with
  | none =>
    refine ⟨fun g hg => ?_, ?_, fun g b hb => ?_⟩
    · exact (Function.update_of_ne hg _ _).trans (h.layout g hg)
    · obtain ⟨rest, hrest⟩ := h.entry
      exact ⟨rest ++ [s.nextBlock], by simp [placeBefore, hrest]⟩
    · by_cases hg : g = s₁.func.f
      · subst hg
        rw [placeBefore, Function.update_self] at hb
        rcases List.mem_append.mp hb with hb | hb
        · exact Nat.lt_succ_of_lt (h.laid _ b hb)
        · rw [List.mem_singleton.mp hb]
          exact Nat.lt_succ_self _
      · rw [placeBefore, Function.update_of_ne hg] at hb
        exact Nat.lt_succ_of_lt (h.laid _ b hb)
  | some b =>
    have hb := hbefore b rfl
    obtain ⟨h₁, h₂, h₃⟩ := h.flatMap b s.nextBlock
      (fun x => if x = b then [s.nextBlock, x] else [x]) (le_of_lt hb) (fun x hx => if_neg hx)
      (by simp) (fun he => by omega)
    refine ⟨h₁, h₂, fun g x hx => ?_⟩
    rcases h₃ g x hx with hx | rfl
    · exact Nat.lt_succ_of_lt (h.laid _ x hx)
    · exact Nat.lt_succ_self _

/-- A new empty block, that is entered in one of the maps. -/
theorem newBlock (h : Own n st L s₁ u s) {v : BasicBlock} {before : Option Nat}
    (hf : v.f = s.func.f) (hnil : v.insts = []) (hempty : v.instrMap = Map.empty)
    (hbefore : ∀ b, before = some b → n < b)
    (hbbs : t.bbs = (s.create v before).bbs) (hb : t.nextBlock = s.nextBlock + 1)
    (hi : t.nextInstr = s.nextInstr) (hmarks : t.marks = s.marks)
    (hlayout : t.layout = (s.create v before).layout) (hbld : t.bld = s.bld)
    (hside : t.pending = s.pending ∧ t.sections = s.sections ∧ t.func.indBBs = s.func.indBBs)
    (hfn : t.func.f = s.func.f) (hcur : t.func.nextBB = s.func.nextBB)
    (hbrs : t.func.indBrs = s.func.indBrs)
    (htracked : ∀ k b, t.findBB k = some b →
      s.findBB k = some b ∨ (b = s.nextBlock ∧ v.addr = some k))
    (hhelper : ∀ a b, b ∈ t.ubbs a → b ∈ s.ubbs a ∨ (b = s.nextBlock ∧ v.addr = none))
    (hfilled : ∀ a, t.func.ubbMap.get? a ≠ some []) : Own n st L s₁ u t := by
  obtain ⟨hother, hentry, hlaid⟩ := h.create_layout hbefore
  have hlay : t.layout = placeBefore s.layout s.func.f s.nextBlock before := by
    rw [hlayout, ← hf]
    rfl
  have hn := h.lt_nextBlock
  have hold : ∀ b, b ≠ s.nextBlock → t.bbs b = s.bbs b := fun b hne => by
    rw [hbbs]
    exact create_bbs_of_ne hne
  have hnew : t.bbs s.nextBlock = v := by
    rw [hbbs]
    exact Function.update_self _ _ _
  refine ⟨h.base, h.since.trans ⟨by omega, le_of_eq hi.symm, fun i hfi => .inl (hbld ▸ hfi),
      fun b hlt => ?_, hside.1, hside.2.1, hside.2.2⟩,
    hfn.trans h.fn, ?_, hi ▸ h.nextInstr, fun b h₁ h₂ => ?_, fun k b hk => ?_, fun a b ha => ?_,
    hfilled, fun b hlt => (hold b (by omega)).trans (h.bbs b hlt), hmarks ▸ h.marks,
      fun g b hg => ?_,
    fun g hg => ?_, ?_, ?_, ?_, fun b h₁ h₂ a i hget => ?_, fun b h₁ h₂ i hmem hk => ?_,
    fun i hmem => ?_, hcur ▸ h.cursor⟩
  · rw [hold b (Nat.ne_of_lt hlt)]
  · rw [hbld]
    have := h.insert
    omega
  · by_cases hne : b = s.nextBlock
    · rw [hne, hnew, hf, h.fn]
    · rw [hold b hne]
      exact h.own b h₁ (by omega)
  · rcases htracked k b hk with hk | ⟨rfl, hv⟩
    · obtain ⟨h₁, h₂, h₃⟩ := h.tracked k b hk
      exact ⟨h₁, by omega, by rw [hold b (Nat.ne_of_lt h₂)]; exact h₃⟩
    · exact ⟨le_of_lt hn, by omega, by rw [hnew]; exact hv⟩
  · rcases hhelper a b ha with ha | ⟨rfl, hv⟩
    · obtain ⟨h₁, h₂, h₃⟩ := h.helper a b ha
      exact ⟨h₁, by omega, by rw [hold b (Nat.ne_of_lt h₂)]; exact h₃⟩
    · exact ⟨le_of_lt hn, by omega, by rw [hnew]; exact hv⟩
  · rw [hlay] at hg
    rw [hb]
    exact hlaid g b hg
  · rw [hlay]
    exact hother g hg
  · rw [hlay]
    exact hentry
  · rw [hold _ (Nat.ne_of_lt hn)]
    exact h.head
  · rw [hold _ (Nat.ne_of_lt hn)]
    exact h.pre
  · by_cases hne : b = s.nextBlock
    · rw [hne, hnew, hempty] at hget
      cases hget
    · rw [hold b hne] at hget
      exact h.mapped b h₁ (by omega) a i hget
  · rw [hbrs]
    by_cases hne : b = s.nextBlock
    · rw [hne, hnew, hnil] at hmem
      cases hmem
    · rw [hold b hne] at hmem
      exact h.indirect b h₁ (by omega) i hmem hk
  · rw [hi]
    exact h.noted i (hbrs ▸ hmem)

theorem newBB (h : Own n st L s₁ u s) (k : Nat) {before : Option Nat}
    (hbefore : ∀ b, before = some b → n < b) : Own n st L s₁ u (s.newBB k before).2 := by
  refine h.newBlock (v := {f := s.func.f, addr := some k}) rfl rfl rfl hbefore rfl rfl rfl rfl rfl
    rfl ⟨rfl, rfl, rfl⟩ rfl rfl rfl (fun c b hc => ?_) (fun a b ha => .inl ha) h.filled
  rw [newBB_find] at hc
  split at hc
  next heq => exact .inr ⟨(Option.some.inj hc).symm, by rw [heq]⟩
  next => exact .inl hc

theorem newUBB (h : Own n st L s₁ u s) {a : Nat} (ha : st ≤ a) :
    Own n st L s₁ u (s.newUBB a).2 ∧ n ≤ (s.newUBB a).1 ∧
      (s.newUBB a).1 < (s.newUBB a).2.nextBlock := by
  refine ⟨h.newBlock (v := {f := s.func.f, untracked := true}) rfl rfl rfl
    (fun b hb => (h.lowerBound (by omega) hb).1) rfl rfl rfl rfl rfl rfl ⟨rfl, rfl, rfl⟩ rfl rfl rfl
    (fun c b hc => .inl hc) (fun c b hb => ?_) (fun c => ?_), le_of_lt h.lt_nextBlock,
    Nat.lt_succ_self _⟩
  · rw [newUBB_ubbs] at hb
    split at hb
    · rcases List.mem_append.mp hb with hb | hb
      · exact .inl hb
      · exact .inr ⟨List.mem_singleton.mp hb, rfl⟩
    · exact .inl hb
  · show (s.func.ubbMap.upsert a (s.ubbs a ++ [s.nextBlock])).get? c ≠ _
    rw [Map.get?_upsert]
    split
    · simp
    · exact h.filled c

/-- A block of the function is entered in its map. -/
theorem addBB (h : Own n st L s₁ u s) {k b : Nat} (hn : n ≤ b) (hlt : b < s.nextBlock)
    (ha : (s.bbs b).addr = some k) : Own n st L s₁ u (s.addBB k b) := by
  refine {h with since := ?_, tracked := fun c x hc => ?_}
  · exact h.since.trans ⟨le_refl _, le_refl _, fun _ hi => .inl hi, fun _ _ => rfl, rfl, rfl, rfl⟩
  · rw [addBB_find] at hc
    split at hc
    next heq =>
      obtain rfl := Option.some.inj hc
      exact ⟨hn, hlt, by rw [heq]; exact ha⟩
    next => exact h.tracked c x hc

/-- **Splitting one of the function's blocks.** -/
theorem split (h : Own n st L s₁ u s) {bb k nb : Nat} (hn : n ≤ bb) (hlt : bb < s.nextBlock)
    (hs : s.split bb k = .ok (nb, t)) :
    Own n st L s₁ u t ∧ n ≤ nb ∧ nb < t.nextBlock ∧ (t.bbs nb).addr = some k := by
  obtain ⟨rfl, o⟩ := split_outer (Nat.ne_of_lt hlt) hs
  have hnext := o.nextBlock
  have hlt' := h.lt_nextBlock
  have htag : ∀ b, b < s.nextBlock → (t.bbs b).tag = (s.bbs b).tag := by
    intro b hb
    by_cases hbb : b = bb
    · rw [hbb]
      exact o.old
    · rw [o.other b hbb (Nat.ne_of_lt hb)]
  have haddr : ∀ b, b < s.nextBlock → (t.bbs b).addr = (s.bbs b).addr := fun b hb =>
    congrArg (fun x : FnId × Option Nat × Bool => x.2.1) (htag b hb)
  obtain ⟨h₁, h₂, h₃⟩ := h.flatMap bb s.nextBlock
    (fun x => if x = bb then [x, s.nextBlock] else [x]) hn (fun x hx => if_neg hx)
    (by simp) (fun _ => ⟨[s.nextBlock], if_pos rfl⟩)
  refine ⟨⟨h.base, h.since.trans ⟨by omega, o.nextInstr, fun i hi => .inl (o.first ▸ hi),
      fun b hb => htag b hb, o.pending, o.sections, by rw [o.func]⟩, by rw [o.func]; exact h.fn, ?_,
        le_trans h.nextInstr o.nextInstr,
      fun b hb hbt => ?_, fun c b hc => ?_, fun a b ha => ?_, by rw [o.func]; exact h.filled,
      fun b hb => ?_, fun i hi => ?_, fun g b hg => ?_, fun g hg => ?_, ?_,
        (htag n hlt').trans h.head, ?_,
      fun b hb hbt a i hget => ?_, fun b hb hbt i hmem hk => ?_, fun i hmem => ?_, ?_⟩,
        le_of_lt hlt', by omega, ?_⟩
  · rw [o.insert]
    have := h.insert
    omega
  · by_cases hne : b = s.nextBlock
    · rw [hne]
      exact (congrArg Prod.fst o.new).trans (h.own bb hn hlt)
    · exact (congrArg Prod.fst (htag b (by omega))).trans (h.own b hb (by omega))
  · unfold State.findBB at hc
    rw [o.func] at hc
    obtain ⟨g₁, g₂, g₃⟩ := h.tracked c b hc
    exact ⟨g₁, by omega, (haddr b g₂).trans g₃⟩
  · unfold State.ubbs at ha
    rw [o.func] at ha
    obtain ⟨g₁, g₂, g₃⟩ := h.helper a b ha
    exact ⟨g₁, by omega, (haddr b g₂).trans g₃⟩
  · rw [o.other b (by omega) (by omega)]
    exact h.bbs b hb
  · rw [o.marks i (lt_of_lt_of_le hi h.nextInstr)]
    exact h.marks i hi
  · rw [o.layout] at hg
    rcases h₃ g b hg with hg | rfl
    · have := h.laid g b hg
      omega
    · omega
  · rw [o.layout]
    exact h₁ g hg
  · rw [o.layout]
    exact h₂
  · by_cases hbb : n = bb
    · subst hbb
      refine o.keeps _ h.pre fun i hi hget => ?_
      have hid := h.base.ids i hi
      have := h.mapped n hn hlt k i.id hget
      omega
    · rw [o.other n hbb (Nat.ne_of_lt hlt')]
      exact h.pre
  · by_cases hbb : b = bb ∨ b = s.nextBlock
    · exact h.mapped bb hn hlt a i (o.mapped b hbb a i hget)
    · rw [not_or] at hbb
      rw [o.other b hbb.1 hbb.2] at hget
      exact h.mapped b hb (by omega) a i hget
  · rw [o.func]
    by_cases hbb : b = bb ∨ b = s.nextBlock
    · exact h.indirect bb hn hlt i (o.indirect b hbb i hmem hk) hk
    · rw [not_or] at hbb
      rw [o.other b hbb.1 hbb.2] at hmem
      exact h.indirect b hb (by omega) i hmem hk
  · rw [o.func] at hmem
    have := h.noted i hmem
    have := o.nextInstr
    omega
  · rw [o.func]
    exact h.cursor
  · exact congrArg (fun x : FnId × Option Nat × Bool => x.2.1) o.new

end Own
end RiscvSbt.Block
