import RiscvSbt.Block.Flow

/-! Walking the finished blocks visits what the guest visits.

The outcome of a guest branch is drawn from `o`, by how many instructions have been visited
so far and by the address of the branch; the tests of auxiliary code are drawn from `p`. -/
namespace RiscvSbt.Block
open Library State

/-- The addresses that the guest program counter visits first, from `pc` on. -/
def visits (body : Nat → Inst) (o : Nat → Nat → Bool) : Nat → Nat → Nat → List Nat
  | 0, _, _ => []
  | m + 1, pc, j =>
    pc :: match (body pc).act.succ? pc (o (j + 1) pc) with
      | some c => visits body o m c (j + 1)
      | none => []

/-- How many guest instructions start at an LLVM instruction. -/
def marked (t : State) (i : Instr) : Nat := (t.marks i.id).toList.length

/-- The guest instructions that start on the way through the blocks, over a number of LLVM
instructions. The walk ends at a return, and where a block is not terminated. -/
def walk (t : State) (o : Nat → Nat → Bool) (p : Nat → Bool) :
    Nat → List Instr → Nat → Nat → List Nat
  | 0, _, _, _ => []
  | _ + 1, [], _, _ => []
  | f + 1, i :: l, j, h =>
    let j := j + marked t i
    (t.marks i.id).toList ++ match i.kind with
      | .op => walk t o p f l j h
      | .br b => walk t o p f (t.bbs b).insts j h
      | .condBr (.guest a) u v => walk t o p f (t.bbs (if o j a then u else v)).insts j h
      | .condBr .helper u v => walk t o p f (t.bbs (if p h then u else v)).insts j (h + 1)
      | _ => []

variable {opts : Options} {body : Nat → Inst} {st e : Nat} {t : State} {a : Nat}
  {o : Nat → Nat → Bool} {p : Nat → Bool} {taken : Bool} {P : List Instr → Prop} {stop : Prop}
  {l : List Instr} {tr : List Nat}

/-! ### Prefixes -/

theorem walk_succ (f : Nat) (l : List Instr) (j h : Nat) :
    walk t o p f l j h <+: walk t o p (f + 1) l j h := by
  induction f generalizing l j h with
  | zero => exact List.nil_prefix
  | succ f ih =>
    cases l with
    | nil => exact List.nil_prefix
    | cons i l =>
      unfold walk
      refine List.prefix_append_right_inj _ |>.mpr ?_
      cases i.kind with
      | op => exact ih _ _ _
      | br b => exact ih _ _ _
      | condBr cond u v =>
        cases cond with
        | guest a => exact ih _ _ _
        | helper => exact ih _ _ _
      | ret | indBr | unreachable => exact List.nil_prefix

theorem walk_le {f g : Nat} (hfg : f ≤ g) (l : List Instr) (j h : Nat) :
    walk t o p f l j h <+: walk t o p g l j h := by
  induction hfg with
  | refl => exact List.prefix_refl _
  | step _ ih => exact ih.trans (walk_succ _ l j h)

theorem visits_prefix {m pc j : Nat} {q : List Nat} (hq : q <+: visits body o m pc j) :
    q = visits body o q.length pc j := by
  induction m generalizing pc j q with
  | zero => rw [List.prefix_nil.mp hq]; rfl
  | succ m ih =>
    cases q with
    | nil => rfl
    | cons x q =>
      unfold visits at hq ⊢
      obtain ⟨rfl, hq⟩ := List.cons_prefix_cons.mp hq
      refine congrArg (x :: ·) ?_
      cases hs : (body x).act.succ? x (o (j + 1) x) with
      | none => rw [hs] at hq; exact List.prefix_nil.mp hq
      | some c => rw [hs] at hq; exact ih hq

/-! ### Walking where the code leads -/

/-- The walk from `l` on passes `tr`, and then goes on at `P` or is over. -/
def Passes (t : State) (o : Nat → Nat → Bool) (p : Nat → Bool) (P : List Instr → Prop) (stop : Prop)
    (l : List Instr) (tr : List Nat) (j h : Nat) : Prop :=
  ∃ m, tr.length ≤ m ∧
    ((∃ l' h', P l' ∧ ∀ f, walk t o p (m + f) l j h = tr ++ walk t o p f l' (j + tr.length) h') ∨
      (stop ∧ ∀ f, walk t o p (m + f) l j h = tr))

theorem Passes.step {i : Instr} {r : List Instr} {j h h' : Nat}
    (hstep : ∀ f, walk t o p (f + 1) (i :: r) j h =
      (t.marks i.id).toList ++ walk t o p f l (j + marked t i) h')
    (hl : Passes t o p P stop l tr (j + marked t i) h') :
    Passes t o p P stop (i :: r) ((t.marks i.id).toList ++ tr) j h := by
  obtain ⟨m, hm, hor⟩ := hl
  have hlen : (t.marks i.id).toList.length ≤ 1 := by cases t.marks i.id <;> simp
  have hf : ∀ f, m + 1 + f = m + f + 1 := fun f => by omega
  refine ⟨m + 1, by rw [List.length_append]; omega, ?_⟩
  rcases hor with ⟨l', h', hP, hw⟩ | ⟨hs, hw⟩
  · refine .inl ⟨l', h', hP, fun f => ?_⟩
    rw [hf, hstep, hw, List.append_assoc, List.length_append, ← Nat.add_assoc]
    rfl
  · exact .inr ⟨hs, fun f => by rw [hf, hstep, hw]⟩

/-- The walk passes what the code is known to lead through. -/
theorem Leads.passes (hl : Leads t a taken P stop l tr) (j h : Nat)
    (ho : o (j + tr.length) a = taken) : Passes t o p P stop l tr j h := by
  induction hl generalizing j h with
  | @here l hP =>
    exact ⟨0, le_refl _, .inl ⟨l, h, hP, fun f => by rw [Nat.zero_add]; rfl⟩⟩
  | @op i l tr kind rest ih =>
    rw [List.length_append, ← Nat.add_assoc] at ho
    refine .step (fun f => ?_) (ih _ h ho)
    simp only [walk, kind]
  | @br i b tr kind rest ih =>
    rw [List.length_append, ← Nat.add_assoc] at ho
    refine .step (fun f => ?_) (ih _ h ho)
    simp only [walk, kind]
  | @guest i u v kind rest ih =>
    rw [← List.append_nil (t.marks i.id).toList]
    refine .step (fun f => ?_) (ih _ h ho)
    simp only [walk, kind]
    rw [show o (j + marked t i) a = taken from ho]
  | @helper i u v tr kind yes no ihyes ihno =>
    rw [List.length_append, ← Nat.add_assoc] at ho
    have hgo : Passes t o p P stop (t.bbs (if p h then u else v)).insts tr
        (j + marked t i) (h + 1) := by
      cases p h with
      | true => exact ihyes _ _ ho
      | false => exact ihno _ _ ho
    refine .step (fun f => ?_) hgo
    simp only [walk, kind]
  | @stop i kind hs =>
    refine ⟨1, by cases t.marks i.id <;> simp, .inr ⟨hs, fun f => ?_⟩⟩
    rw [Nat.add_comm]
    rcases kind with kind | kind <;> simp only [walk, kind, List.append_nil]

/-- **Both visit the same.** -/
theorem Done.walk_eq (hd : Done opts body st e t) (m : Nat) {c : Nat}
    (hat : At opts body st e t c l)
    (j h : Nat) : ∃ f, m ≤ f ∧ walk t o p f l j h = visits body o m c j := by
  induction m generalizing c l j h with
  | zero => exact ⟨0, le_refl _, rfl⟩
  | succ m ih =>
    have hl : Leads t c (o (j + 1) c) _ _ l [c] := hd.leads hat
    obtain ⟨f, hf, ⟨l', h', ⟨c', hs, hat'⟩, hw⟩ | ⟨hs, hw⟩⟩ := hl.passes (p := p) j h rfl
    · obtain ⟨g, hg, hv⟩ := ih hat' (j + 1) h'
      refine ⟨f + g, by rw [List.length_singleton] at hf; omega, ?_⟩
      rw [hw, List.length_singleton, hv, visits, hs]
      rfl
    · refine ⟨f + m, by rw [List.length_singleton] at hf; omega, ?_⟩
      rw [hw, visits, hs]

/-- Whatever the walk visits, the guest does. -/
theorem Done.visits_eq (hd : Done opts body st e t) {c : Nat} (hat : At opts body st e t c l)
    (f j h : Nat) : ∃ m, walk t o p f l j h = visits body o m c j := by
  obtain ⟨g, hfg, hg⟩ := hd.walk_eq (o := o) (p := p) f hat j h
  have hpre := walk_le (t := t) (o := o) (p := p) hfg l j h
  rw [hg] at hpre
  exact ⟨_, visits_prefix hpre⟩

/-- A branch at 4 goes back to the start, and the function returns at 8. -/
def countBody : Nat → Inst
  | 4 => ⟨0, .branch 0, fun _ h => by cases h; rfl⟩
  | 8 => .ret 0
  | _ => .straight 1

/-- **Control flow is kept.** The blocks of a function whose jumps stay inside and whose last
instruction does not fall through are built, and walking them visits the addresses that the
guest visits, in the same order: whatever one visits first, the other does. -/
theorem blocks_trace (opts : Options) (body : Nat → Inst) (s : State) (f : FnId)
    (st prologue count : Nat) (hst : st % 4 = 0)
    (hpend : ∀ a, st ≤ a → a < st + 4 * (count + 1) → s.pending.get? a = none)
    (htgt : ∀ a tgt, st ≤ a → a < st + 4 * (count + 1) → a % 4 = 0 →
      (body a).act.target? = some tgt → st ≤ tgt ∧ tgt < st + 4 * (count + 1) ∧ tgt ≠ a)
    (hlast : (body (st + 4 * count)).act.falls = false) :
    ∃ t b, ((s.newFunction f).start st prologue).translateInstrs opts body (count + 1) st = .ok t ∧
      t.findBB st = some b ∧ ∀ o p,
        (∀ m, ∃ g, walk t o p g (t.bbs b).insts 0 0 = visits body o m st 0) ∧
        ∀ g, ∃ m, walk t o p g (t.bbs b).insts 0 0 = visits body o m st 0 := by
  have hstart : Reach opts body st ((s.newFunction f).start st prologue) st _ := .start
  obtain ⟨t, ht⟩ := hstart.runs hst (count + 1) hpend fun a tgt h₁ h₂ h₃ h₄ =>
    ⟨(htgt a tgt h₁ h₂ h₃ h₄).1, (htgt a tgt h₁ h₂ h₃ h₄).2.2⟩
  obtain ⟨main, k, hinv, -⟩ := (hstart.translateInstrs _ ht).inv hst
  have hin : Inside body st (st + 4 * count + 4) :=
    .of_targets (by omega) (fun c tgt h₁ h₂ h₃ h₄ =>
      ⟨(htgt c tgt h₁ h₂ h₃ h₄).1, (htgt c tgt h₁ h₂ h₃ h₄).2.1⟩) hlast
  have hd : Done opts body st (st + 4 * count + 4) t :=
    Inv.done hinv (Nat.le_add_right _ _) hin fun c h₁ h₂ _ _ hopen => hopen.1 (hpend c h₁ h₂)
  obtain ⟨b, hb⟩ := hd.entry
  obtain ⟨hterm, e', hcode, -⟩ := hd.block st b hb (by omega)
  have hat : At opts body st (st + 4 * count + 4) t st (t.bbs b).insts :=
    ⟨⟨le_refl _, by omega, hst⟩, hterm, e', hcode⟩
  exact ⟨t, b, ht, hb, fun o p => ⟨fun m => (hd.walk_eq m hat 0 0).imp fun _ hg => hg.2,
    fun g => hd.visits_eq hat g 0 0⟩⟩

/-- The walk of a loop, that is left the second time. -/
theorem blocks_trace_loop : ∃ t b,
    ((emptyState.newFunction 0).start 0 2).translateInstrs {} countBody 3 0 = .ok t ∧
      t.findBB 0 = some b ∧
      ∃ g, walk t (fun j _ => decide (j < 3)) (fun _ => false) g (t.bbs b).insts 0 0 =
        [0, 4, 0, 4, 8] := by
  obtain ⟨t, b, ht, hb, h⟩ := blocks_trace {} countBody emptyState 0 0 2 2 rfl (fun _ _ _ => rfl)
    (by
      intro a tgt _ _ _ h
      unfold countBody at h
      split at h
      · obtain rfl := Option.some.inj h
        exact ⟨Nat.zero_le _, by decide, by decide⟩
      · exact nomatch h
      · exact nomatch h) rfl
  obtain ⟨g, hg⟩ := (h (fun j _ => decide (j < 3)) fun _ => false).1 6
  exact ⟨t, b, ht, hb, g, hg⟩

end RiscvSbt.Block
