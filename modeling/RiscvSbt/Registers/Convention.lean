import Mathlib.Data.Set.Function
import RiscvSbt.Registers.Shape

/-! The calling convention, over runs with all registers in the global file.

What a function may rely on is not in a state. A shadow adds it: the registers of each
activation, the cells of memory, and the `sp` of the last call by a function that accesses
`sp`. A function relies on registers that pass arguments when it starts, on what it computes
from what it relies on, and after a call on results and on what the callee restored. What it
received in another register it may save: the cell is no longer relied on then. -/
namespace RiscvSbt.Registers

variable {V A B W : Type}

/-- `sp`, `s0` to `s11` and `fs0` to `fs11`. -/
def calleeSaved : Reg → Bool
  | .x i => i.val = 2 ∨ i.val = 8 ∨ i.val = 9 ∨ 18 ≤ i.val ∧ i.val ≤ 27
  | .f i => i.val = 8 ∨ i.val = 9 ∨ 18 ≤ i.val ∧ i.val ≤ 27

theorem eq_sp_of_calleeSaved {r : Reg} (h : calleeSaved r = true) (hr : syncCall r = true) :
    r = Reg.SP := by
  have hx : ∀ i, calleeSaved (.x i) = true → syncCall (.x i) = true → Reg.x i = Reg.SP := by decide
  have hf : ∀ i, calleeSaved (.f i) = true → syncCall (.f i) = true → Reg.f i = Reg.SP := by decide
  cases r with
  | x i => exact hx i h hr
  | f i => exact hf i h hr

theorem syncRet_cases {r : Reg} (h : syncRet r = true) :
    syncCall r = true ∧ calleeSaved r = false ∧ r ≠ Reg.SP := by
  have hall : ∀ r ∈ [Reg.A0, Reg.A1, Reg.FA0, Reg.FA1],
    syncCall r = true ∧ calleeSaved r = false ∧ r ≠ Reg.SP := by decide
  exact hall r (of_decide_eq_true h)

/-! ### What code computes -/

namespace Code

/-- Registers, memory and the outside world after an item. -/
def effect [DecidableEq A] (regs : Reg → V) (mem : A → B) (world : W) :
    Code V A B W → (Reg → V) × (A → B) × W
  | .op o =>
    let vs := o.reads.map regs
    let (out, cells) := o.eval vs ((o.loads vs).map mem)
    (Program.writeRegs regs o.writes out, Program.writeAll mem (o.stores vs) cells, world)
  | .ext e =>
    let (out, mem, world) := e.eval (e.args.map regs) mem world
    (Program.writeRegs regs e.rets out, mem, world)
  | _ => (regs, mem, world)

/-- Items with an effect. -/
def acts : Code V A B W → Bool
  | .op _ | .ext _ => true
  | _ => false

def writes : Code V A B W → List Reg
  | .op o => o.writes
  | .ext e => e.rets
  | _ => []

/-- Items that calls are made with. -/
def calls : Code V A B W → Bool
  | .call _ | .icall _ => true
  | _ => false

/-- Items that neither compute nor decide anything. -/
def quiet : Code V A B W → Bool
  | .mark | .loadRegs _ | .storeRegs _ | .br _ => true
  | _ => false

theorem quiet_of_acts {c : Code V A B W} (h : c.acts = true) : c.quiet = false := by
  cases c <;> first | rfl | cases h

theorem quiet_of_calls {c : Code V A B W} (h : c.calls = true) : c.quiet = false := by
  cases c <;> first | rfl | cases h

theorem acts_of_calls {c : Code V A B W} (h : c.calls = true) : c.acts = false := by
  cases c <;> first | rfl | cases h

/-- What an item makes of `known` registers and `clean` cells decides about `known'` registers,
`clean'` cells and the outside world. -/
def Determined [DecidableEq A] (c : Code V A B W) (regs : Reg → V) (mem : A → B) (world : W)
    (known known' : Set Reg) (clean clean' : A → Bool) : Prop :=
  ∀ regs' mem', Set.EqOn regs' regs known → (∀ a, clean a = true → mem' a = mem a) →
    Set.EqOn (c.effect regs' mem' world).1 (c.effect regs mem world).1 known' ∧
      (∀ a, clean' a = true → (c.effect regs' mem' world).2.1 a = (c.effect regs mem world).2.1 a) ∧
      (c.effect regs' mem' world).2.2 = (c.effect regs mem world).2.2

end Code

/-! ### Shadows -/

/-- What an activation may rely on, and what it received. -/
structure Trust (V : Type) where
  rely : Reg → Bool
  entry : Reg → V

/-- The registers with a value that is known: `x0` is one. -/
def Trust.known (t : Trust V) : Set Reg := {r | r = Reg.ZERO ∨ t.rely r = true}

structure Shadow (V A : Type) where
  /-- The cells that may be relied on. -/
  clean : A → Bool
  /-- The `sp` of the last call by a function that accesses `sp`. -/
  sp : V
  stack : List (Trust V)

/-- A run starts with arguments in registers and all of memory. -/
def Shadow.start (regs : Reg → V) : Shadow V A :=
  {clean := fun _ => true, sp := regs Reg.SP, stack := [⟨syncCall, regs⟩]}

/-- The running function is about to make a call. -/
def Frame.calls (fr : Frame V A B W) : Bool :=
  match fr.code with
  | c :: _ => c.calls
  | [] => false

namespace Program
variable (P : Program V A B W)

/-- What the registers hold if all are in the global file. -/
def held (g : State V A B W) (r : Reg) : V := if r = Reg.ZERO then P.zero else g.regs r

variable [DecidableEq A]

/-- What the convention lets the next item of a function do, and what may be relied on behind
it. -/
inductive Follows (g : State V A B W) (f : FnId) :
    List (Code V A B W) → Shadow V A → Shadow V A → Prop where
  | next {σ : Shadow V A} : Follows g f [] σ σ
  | quiet {c : Code V A B W} {code : List (Code V A B W)} {σ : Shadow V A} :
      c.quiet = true → Follows g f (c :: code) σ σ
  | acts {c : Code V A B W} {code : List (Code V A B W)} {clean clean' : A → Bool} {sp : V}
      {t : Trust V} {ts : List (Trust V)} {rely : Reg → Bool} : c.acts = true →
      (∀ r, rely r = true → t.rely r = true ∨ r ∈ c.writes) →
      c.Determined (P.held g) g.mem g.world t.known (Trust.known ⟨rely, t.entry⟩) clean clean' →
      Follows g f (c :: code) ⟨clean, sp, t :: ts⟩ ⟨clean', sp, ⟨rely, t.entry⟩ :: ts⟩
  | target {reads : List Reg} {dest : List V → Option FnId} {code : List (Code V A B W)}
      {σ : Shadow V A} {t : Trust V} {ts : List (Trust V)} : σ.stack = t :: ts →
      (∀ regs, Set.EqOn regs (P.held g) t.known →
        dest (reads.map regs) = dest (reads.map (P.held g))) →
      Follows g f (.target reads dest :: code) σ σ
  | condBr {reads : List Reg} {cond : List V → Bool} {addr : Nat} {code : List (Code V A B W)}
      {σ : Shadow V A} {t : Trust V} {ts : List (Trust V)} : σ.stack = t :: ts →
      (∀ regs, Set.EqOn regs (P.held g) t.known →
        cond (reads.map regs) = cond (reads.map (P.held g))) →
      Follows g f (.condBr reads cond addr :: code) σ σ
  /-- The callee starts with arguments. A function that accesses `sp` has one to pass. -/
  | call {c : Code V A B W} {code : List (Code V A B W)} {clean : A → Bool} {sp : V}
      {t : Trust V} {ts : List (Trust V)} {rely : Reg → Bool} : c.calls = true →
      (P.isLocal f Reg.SP = true → t.rely Reg.SP = true) →
      (∀ r, rely r = true → syncCall r = true ∧ t.rely r = true) →
      Follows g f (c :: code) ⟨clean, sp, t :: ts⟩
        ⟨clean, if P.isLocal f Reg.SP then g.regs Reg.SP else sp, ⟨rely, g.regs⟩ :: t :: ts⟩
  /-- The caller goes on with results, and with what it relied on and the callee restored. -/
  | ret {code : List (Code V A B W)} {clean : A → Bool} {sp : V} {t u : Trust V}
      {ts : List (Trust V)} {rely : Reg → Bool} :
      (∀ r, calleeSaved r = true → g.regs r = t.entry r) →
      (∀ r, rely r = true →
        syncRet r = true ∧ t.rely r = true ∨ calleeSaved r = true ∧ u.rely r = true) →
      Follows g f (.ret :: code) ⟨clean, sp, t :: u :: ts⟩ ⟨clean, sp, ⟨rely, u.entry⟩ :: ts⟩
  | exit {code : List (Code V A B W)} {clean : A → Bool} {sp : V} {t : Trust V} :
      (∀ r, calleeSaved r = true → g.regs r = t.entry r) →
      Follows g f (.ret :: code) ⟨clean, sp, [t]⟩ ⟨clean, sp, []⟩

theorem Follows.of_quiet {P : Program V A B W} {g : State V A B W} {f : FnId} {c : Code V A B W}
    {code : List (Code V A B W)} {σ σ' : Shadow V A} (h : P.Follows g f (c :: code) σ σ')
    (hq : c.quiet = true) : σ' = σ := by
  cases h with
  | quiet => rfl
  | acts ha => rw [Code.quiet_of_acts ha] at hq; cases hq
  | call hc => rw [Code.quiet_of_calls hc] at hq; cases hq
  | target | condBr | ret | exit => cases hq

theorem Follows.of_calls {P : Program V A B W} {g : State V A B W} {f : FnId} {c : Code V A B W}
    {code : List (Code V A B W)} {clean : A → Bool} {sp : V} {t : Trust V} {ts : List (Trust V)}
    {σ' : Shadow V A} (h : P.Follows g f (c :: code) ⟨clean, sp, t :: ts⟩ σ')
    (hc : c.calls = true) :
    ∃ rely, σ' = ⟨clean, if P.isLocal f Reg.SP then g.regs Reg.SP else sp,
        ⟨rely, g.regs⟩ :: t :: ts⟩ ∧
      (P.isLocal f Reg.SP = true → t.rely Reg.SP = true) ∧
      ∀ r, rely r = true → syncCall r = true ∧ t.rely r = true := by
  cases h with
  | quiet hq => rw [Code.quiet_of_calls hc] at hq; cases hq
  | acts ha => rw [Code.acts_of_calls hc] at ha; cases ha
  | call _ hsp hrely => exact ⟨_, rfl, hsp, hrely⟩
  | target | condBr | ret | exit => cases hc

/-- A run of `n` steps that abides by the convention, with its shadow. Its steps may be held to
one more condition. -/
inductive Abides (ok : State V A B W → Shadow V A → Shadow V A → Prop) (regs : Reg → V)
    (mem : A → B) (world : W) (f : FnId) : Nat → State V A B W → Shadow V A → Prop where
  | start {g : State V A B W} :
      (P.withRegs .GLOBALS).enter {regs := regs, mem := mem, world := world, stack := []} f =
        some g → Abides ok regs mem world f 0 g (Shadow.start regs)
  | step {n : Nat} {g g' : State V A B W} {gf : Frame V A B W} {gs : List (Frame V A B W)}
      {σ σ' : Shadow V A} : Abides ok regs mem world f n g σ → g.stack = gf :: gs →
      P.Follows g gf.f gf.code σ σ' → ok g σ σ' → (P.withRegs .GLOBALS).step g = some g' →
      Abides ok regs mem world f (n + 1) g' σ'

/-- Where a function that does not access `sp` calls one that relies on it, `sp` is what the last
function passed that accesses it. -/
def PassesSp (g : State V A B W) (σ σ' : Shadow V A) : Prop :=
  match g.stack, σ'.stack with
  | gf :: _, t :: _ =>
    gf.calls = true ∧ P.isLocal gf.f Reg.SP = false ∧ t.rely Reg.SP = true →
      σ.sp = g.regs Reg.SP
  | _, _ => True

instance (P : Program V A B W) [DecidableEq V] (g : State V A B W) (σ σ' : Shadow V A) :
    Decidable (P.PassesSp g σ σ') :=
  match hg : g.stack, hσ : σ'.stack with
  | gf :: _, t :: _ =>
    decidable_of_iff (gf.calls = true ∧ P.isLocal gf.f Reg.SP = false ∧ t.rely Reg.SP = true →
      σ.sp = g.regs Reg.SP) (by rw [PassesSp, hg, hσ])
  | [], _ => .isTrue (by rw [PassesSp, hg]; trivial)
  | _ :: _, [] => .isTrue (by rw [PassesSp, hg, hσ]; trivial)

end Program

/-! ### Following the convention, by computation -/

section Check

/-- A register that is written does not depend on what the registers held. -/
theorem writeRegs_of_mem {m m' : Reg → V} {r : Reg} {rs : List Reg} {vs : List V}
    (h : r ∈ rs.take vs.length) (hr : r ≠ Reg.ZERO) :
    Program.writeRegs m rs vs r = Program.writeRegs m' rs vs r := by
  induction rs generalizing m m' vs with
  | nil => simp at h
  | cons r' rs ih =>
    cases vs with
    | nil => simp at h
    | cons v vs =>
      rw [List.length_cons, List.take_succ_cons] at h
      rcases List.mem_cons.mp h with rfl | h
      · exact writeRegs_congr (by simp [hr]) rs vs
      · exact ih h

variable [DecidableEq A]

theorem writeAll_congr {m m' : A → B} {a : A} (h : m a = m' a) (as : List A) (bs : List B) :
    Program.writeAll m as bs a = Program.writeAll m' as bs a := by
  induction as generalizing m m' bs with
  | nil => exact h
  | cons a' as ih =>
    cases bs with
    | nil => exact h
    | cons b bs =>
      refine ih ?_ bs
      by_cases ha : a = a'
      · rw [ha, Function.update_self, Function.update_self]
      · rw [Function.update_of_ne ha, Function.update_of_ne ha, h]

theorem writeAll_of_mem {m m' : A → B} {a : A} {as : List A} {bs : List B}
    (h : a ∈ as.take bs.length) : Program.writeAll m as bs a = Program.writeAll m' as bs a := by
  induction as generalizing m m' bs with
  | nil => simp at h
  | cons a' as ih =>
    cases bs with
    | nil => simp at h
    | cons b bs =>
      rw [List.length_cons, List.take_succ_cons] at h
      rcases List.mem_cons.mp h with rfl | h
      · exact writeAll_congr (by simp) as bs
      · exact ih h

def Trust.knows (t : Trust V) (r : Reg) : Bool := r = Reg.ZERO || t.rely r

theorem Trust.mem_known {t : Trust V} {r : Reg} : r ∈ t.known ↔ t.knows r = true := by
  simp [known, knows]

theorem Trust.map_reads {t : Trust V} {regs regs' : Reg → V} (h : Set.EqOn regs' regs t.known)
    {reads : List Reg} (hr : reads.all t.knows = true) : reads.map regs' = reads.map regs :=
  List.map_congr_left fun r hmem => h (t.mem_known.mpr (List.all_eq_true.mp hr r hmem))

/-- An instruction that reads what is known: then all that it writes is. -/
theorem Code.determined_op {o : Op V A B} {regs : Reg → V} {mem : A → B} {world : W}
    {t : Trust V} {clean : A → Bool} (hr : o.reads.all t.knows = true)
    (hl : (o.loads (o.reads.map regs)).all clean = true) :
    let vs := o.reads.map regs
    let x := o.eval vs ((o.loads vs).map mem)
    (Code.op o : Code V A B W).Determined regs mem world t.known
      (Trust.known ⟨fun r => t.rely r || r ∈ o.writes.take x.1.length, t.entry⟩) clean
      (fun a => clean a || a ∈ (o.stores vs).take x.2.length) := by
  intro vs x regs' mem' hregs hmem
  have hvs : o.reads.map regs' = vs := t.map_reads hregs hr
  have hcells : (o.loads vs).map mem' = (o.loads vs).map mem :=
    List.map_congr_left fun a ha => hmem a (List.all_eq_true.mp hl a ha)
  simp only [effect, hvs, hcells]
  refine ⟨fun r hrel => ?_, fun a ha => ?_, trivial⟩
  · rcases hrel with rfl | hrel
    · exact writeRegs_congr (hregs (.inl rfl)) _ _
    · rcases Bool.or_eq_true_iff.mp hrel with h | h
      · exact writeRegs_congr (hregs (.inr h)) _ _
      · by_cases hz : r = Reg.ZERO
        · exact writeRegs_congr (hregs (.inl hz)) _ _
        · exact writeRegs_of_mem (of_decide_eq_true h) hz
  · rcases Bool.or_eq_true_iff.mp ha with h | h
    · exact writeAll_congr (hmem a h) _ _
    · exact writeAll_of_mem (of_decide_eq_true h)

namespace Program
variable (P : Program V A B W) [DecidableEq V]

/-- The largest shadow behind the next item, if what the item reads is known. Calls of external
functions are left out. -/
def check (g : State V A B W) (σ : Shadow V A) : Option (Shadow V A) :=
  match g.stack, σ.stack with
  | gf :: _, t :: ts =>
    match gf.code with
    | [] | .mark :: _ | .loadRegs _ :: _ | .storeRegs _ :: _ | .br _ :: _ => some σ
    | .op o :: _ =>
      let vs := o.reads.map (P.held g)
      let x := o.eval vs ((o.loads vs).map g.mem)
      if o.reads.all t.knows && (o.loads vs).all σ.clean then
        some ⟨fun a => σ.clean a || a ∈ (o.stores vs).take x.2.length, σ.sp,
          ⟨fun r => t.rely r || r ∈ o.writes.take x.1.length, t.entry⟩ :: ts⟩
      else none
    | .ext _ :: _ => none
    | .target reads _ :: _ | .condBr reads _ _ :: _ =>
      if reads.all t.knows then some σ else none
    | .call _ :: _ | .icall _ :: _ =>
      if P.isLocal gf.f Reg.SP = true → t.rely Reg.SP = true then
        some ⟨σ.clean, if P.isLocal gf.f Reg.SP then g.regs Reg.SP else σ.sp,
          ⟨fun r => syncCall r && t.rely r, g.regs⟩ :: t :: ts⟩
      else none
    | .ret :: _ =>
      if (∀ i, calleeSaved (.x i) = true → g.regs (.x i) = t.entry (.x i)) ∧
          ∀ i, calleeSaved (.f i) = true → g.regs (.f i) = t.entry (.f i) then
        match ts with
        | [] => some ⟨σ.clean, σ.sp, []⟩
        | u :: us => some ⟨σ.clean, σ.sp,
            ⟨fun r => syncRet r && t.rely r || calleeSaved r && u.rely r, u.entry⟩ :: us⟩
      else none
  | _, _ => none

theorem follows_of_check {g : State V A B W} {gf : Frame V A B W} {gs : List (Frame V A B W)}
    {σ σ' : Shadow V A} (hg : g.stack = gf :: gs) (h : P.check g σ = some σ') :
    P.Follows g gf.f gf.code σ σ' := by
  obtain ⟨clean, sp, ts⟩ := σ
  unfold check at h
  rw [hg] at h
  cases ts with
  | nil => cases h
  | cons t ts =>
    obtain ⟨f, addr, code, regs, target⟩ := gf
    dsimp only at h ⊢
    have hcall {c : Code V A B W} {code : List (Code V A B W)} (hc : c.calls = true)
        (h : (if P.isLocal f Reg.SP = true → t.rely Reg.SP = true then
          some (⟨clean, if P.isLocal f Reg.SP then g.regs Reg.SP else sp,
            ⟨fun r => syncCall r && t.rely r, g.regs⟩ :: t :: ts⟩ : Shadow V A) else none) =
          some σ') : P.Follows g f (c :: code) ⟨clean, sp, t :: ts⟩ σ' := by
      split at h
      next hsp =>
        obtain rfl := Option.some.inj h
        exact .call hc hsp fun r hr => Bool.and_eq_true_iff.mp hr
      next => cases h
    cases code with
    | nil => exact Option.some.inj h ▸ .next
    | cons c code =>
      cases c with
      | mark | loadRegs | storeRegs | br => exact Option.some.inj h ▸ .quiet rfl
      | op o =>
        dsimp only at h
        split at h
        next hread =>
          obtain ⟨hr, hl⟩ := Bool.and_eq_true_iff.mp hread
          obtain rfl := Option.some.inj h
          refine .acts rfl (fun r hrel => ?_) (Code.determined_op hr hl)
          rcases Bool.or_eq_true_iff.mp hrel with h | h
          · exact .inl h
          · exact .inr (List.mem_of_mem_take (of_decide_eq_true h))
        next => cases h
      | ext e => cases h
      | target reads dest =>
        dsimp only at h
        split at h
        next hr =>
          obtain rfl := Option.some.inj h
          exact .target rfl fun regs hregs => by rw [t.map_reads hregs hr]
        next => cases h
      | condBr reads cond addr =>
        dsimp only at h
        split at h
        next hr =>
          obtain rfl := Option.some.inj h
          exact .condBr rfl fun regs hregs => by rw [t.map_reads hregs hr]
        next => cases h
      | call f' => exact hcall rfl h
      | icall args => exact hcall rfl h
      | ret =>
        dsimp only at h
        split at h
        next hall =>
          have hsaved (r : Reg) (hr : calleeSaved r = true) : g.regs r = t.entry r := by
            cases r with
            | x i => exact hall.1 i hr
            | f i => exact hall.2 i hr
          cases ts with
          | nil => exact Option.some.inj h ▸ .exit hsaved
          | cons u us =>
            obtain rfl := Option.some.inj h
            refine .ret hsaved fun r hr => ?_
            rcases Bool.or_eq_true_iff.mp hr with h | h
            · exact .inl (Bool.and_eq_true_iff.mp h)
            · exact .inr (Bool.and_eq_true_iff.mp h)
        next => cases h

/-- A run with its largest shadow. -/
def checked (ok : State V A B W → Shadow V A → Shadow V A → Prop)
    [∀ g σ σ', Decidable (ok g σ σ')] (regs : Reg → V) (mem : A → B) (world : W) (f : FnId) :
    Nat → Option (State V A B W × Shadow V A)
  | 0 => ((P.withRegs .GLOBALS).enter {regs := regs, mem := mem, world := world, stack := []} f).map
      (·, Shadow.start regs)
  | n + 1 => do
    let (g, σ) ← checked ok regs mem world f n
    let σ' ← P.check g σ
    if ok g σ σ' then (((P.withRegs .GLOBALS).step g).map (·, σ')) else none

theorem abides_of_checked {ok : State V A B W → Shadow V A → Shadow V A → Prop}
    [∀ g σ σ', Decidable (ok g σ σ')] {regs : Reg → V} {mem : A → B} {world : W} {f : FnId}
    {n : Nat} {x : State V A B W × Shadow V A} (h : P.checked ok regs mem world f n = some x) :
    P.Abides ok regs mem world f n x.1 x.2 := by
  induction n generalizing x with
  | zero =>
    obtain ⟨g, hg, rfl⟩ := Option.map_eq_some_iff.mp h
    exact .start hg
  | succ n ih =>
    obtain ⟨⟨g, σ⟩, hx, h⟩ := Option.bind_eq_some_iff.mp h
    obtain ⟨σ', hσ, h⟩ := Option.bind_eq_some_iff.mp h
    split at h
    next hok =>
      obtain ⟨g', hg, rfl⟩ := Option.map_eq_some_iff.mp h
      cases hs : g.stack with
      | nil => simp [check, hs] at hσ
      | cons gf gs => exact .step (ih hx) hs (P.follows_of_check hs hσ) hok hg
    next => cases h

end Program
end Check
end RiscvSbt.Registers
