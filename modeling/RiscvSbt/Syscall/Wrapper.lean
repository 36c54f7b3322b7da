import Mathlib.Data.List.Nodup
import RiscvSbt.Syscall.Machine

/-! The x86 functions that ask the kernel.

They are one function with the number of arguments as a parameter (`text_eq`): the registers that it
has to preserve are saved, number and arguments are loaded from the stack, and what was saved is
restored. So each of them asks for what it is called with, and returns the answer. -/
namespace RiscvSbt.Syscall.X86
open Isa (Word Memory)

variable {k : Kernel} {mem : Memory} {regs : Reg → Word} {s : State} {rs : List Reg}
  {ws : List Word}
  {r : Reg} {n : Nat}

/-! ### The functions as one -/

/-- The registers that a function has to preserve. -/
def calleeSaved : List Reg := [.ebx, .esi, .edi, .ebp]

/-- Those that `n` arguments are passed in. -/
def saved (n : Nat) : List Reg := (argRegs.take n).filter (· ∈ calleeSaved)

/-- Loads from the word `j` of the stack on. -/
def loads (j : Nat) : List Reg → List Instr
  | [] => []
  | r :: rs => .movl (4 * j) r :: loads (j + 1) rs

def wrapper (n : Nat) : List Instr :=
  (saved n).map .push ++ loads ((saved n).length + 1) (.eax :: argRegs.take n) ++ [.int] ++
    (saved n).reverse.map .pop ++ [.ret]

theorem text_eq {code : List Instr} (h : text n = some code) : n ≤ 6 ∧ code = wrapper n := by
  match n with
  | 0 | 1 | 2 | 3 | 4 | 5 | 6 =>
    obtain rfl := Option.some.inj h
    exact ⟨by decide, rfl⟩
  | n + 7 => cases h

/-! ### Their parts -/

theorem run_append (a b : List Instr) (s : State) :
    run k mem (a ++ b) s = run k mem a s >>= run k mem b := by
  induction a generalizing s with
  | nil => rfl
  | cons i a ih =>
    show exec k mem s i >>= run k mem (a ++ b) = (exec k mem s i >>= run k mem a) >>= run k mem b
    rw [bind_assoc]
    exact congrArg _ (funext ih)

theorem run_pushes (rs : List Reg) (s : State) : run k mem (rs.map .push) s =
    .ok {s with stack := (rs.map s.regs).reverse ++ s.stack} := by
  induction rs generalizing s with
  | nil => rfl
  | cons r rs ih =>
    show run k mem (rs.map .push) _ = _
    rw [ih]
    simp

/-- The registers, some of them written. -/
def assign (regs : Reg → Word) : List Reg → List Word → Reg → Word
  | r :: rs, w :: ws => assign (Function.update regs r w) rs ws
  | _, _ => regs

theorem assign_of_not_mem (h : r ∉ rs) : assign regs rs ws r = regs r := by
  induction rs generalizing regs ws with
  | nil => rfl
  | cons x rs ih =>
    cases ws with
    | nil => rfl
    | cons w ws =>
      obtain ⟨hx, hrs⟩ := not_or.mp (mt List.mem_cons.mpr h)
      exact (ih hrs).trans (Function.update_of_ne hx w regs)

theorem map_assign (regs : Reg → Word) (hrs : rs.Nodup) (hlen : rs.length = ws.length) :
    rs.map (assign regs rs ws) = ws := by
  induction rs generalizing regs ws with
  | nil => exact (List.length_eq_zero_iff.mp hlen.symm).symm
  | cons x rs ih =>
    cases ws with
    | nil => cases hlen
    | cons w ws =>
      obtain ⟨hx, hrs⟩ := List.nodup_cons.mp hrs
      show assign (Function.update regs x w) rs ws x :: rs.map
        (assign (Function.update regs x w) rs ws) = _
      rw [ih _ hrs (Nat.succ.inj hlen), assign_of_not_mem hx, Function.update_self]

theorem run_loads {j : Nat} {rest : List Word} (hlen : rs.length = ws.length)
    (hs : s.stack.drop j = ws ++ rest) :
    run k mem (loads j rs) s = .ok {s with regs := assign s.regs rs ws} := by
  induction rs generalizing j ws s with
  | nil => rfl
  | cons r rs ih =>
    cases ws with
    | nil => cases hlen
    | cons w ws =>
      have hw : s.stack[4 * j / 4]? = some w := by
        rw [Nat.mul_div_cancel_left j (by decide), ← List.head?_drop, hs]
        rfl
      have hrest : s.stack.drop (j + 1) = ws ++ rest := by
        rw [← List.drop_drop, hs]
        rfl
      have hexec : exec k mem s (.movl (4 * j) r) = .ok (s.set r w) := by
        unfold exec
        dsimp only
        rw [hw]
        rfl
      show exec k mem s (.movl (4 * j) r) >>= _ = _
      rw [hexec]
      exact ih (s := s.set r w) (Nat.succ.inj hlen) hrest

theorem run_pops {rest : List Word} (hlen : rs.length = ws.length) (hs : s.stack = ws ++ rest) :
    run k mem (rs.map .pop) s = .ok {s with regs := assign s.regs rs ws, stack := rest} := by
  induction rs generalizing ws s with
  | nil =>
    obtain rfl := List.length_eq_zero_iff.mp hlen.symm
    obtain rfl : s.stack = rest := hs
    rfl
  | cons r rs ih =>
    cases ws with
    | nil => cases hlen
    | cons w ws =>
      have hexec : exec k mem s (.pop r) = .ok {s.set r w with stack := ws ++ rest} := by
        unfold exec State.pop
        rw [hs]
        rfl
      show exec k mem s (.pop r) >>= _ = _
      rw [hexec]
      exact ih (s := {s.set r w with stack := ws ++ rest}) (Nat.succ.inj hlen) rfl

/-! ### The functions -/

/-- A function was called there, and has returned `v`. -/
structure Returned (c : Site) (args : List Word) (v : Word) (trace : List Event) (t : State) :
    Prop where
  pc : t.pc = some c.ret
  stack : t.stack = args ++ c.stack
  eax : t.regs .eax = v
  saved : ∀ r ∈ calleeSaved, t.regs r = c.regs r
  trace : t.trace = trace

theorem argRegs_nodup : argRegs.Nodup := by decide

theorem saved_nodup (n : Nat) : (saved n).Nodup :=
  ((List.take_sublist n argRegs).nodup argRegs_nodup).filter _

theorem eax_not_mem_saved (n : Nat) : Reg.eax ∉ saved n := fun h =>
  absurd (List.mem_of_mem_take (List.mem_filter.mp h).1) (by decide)

/-- What the kernel finds where it is asked: the number, the arguments, and what was in the other
registers before. -/
theorem loaded_args (regs : Reg → Word) (nr : Word) {args : List Word} (hn : n ≤ 6)
    (hargs : args.length = n) :
    let regs' := assign regs (.eax :: argRegs.take n) (nr :: args)
    regs' .eax = nr ∧ argRegs.map regs' = args ++ (argRegs.drop n).map regs := by
  have heax : Reg.eax ∉ argRegs.take n := fun h => absurd (List.mem_of_mem_take h) (by decide)
  have hnodup : (Reg.eax :: argRegs.take n).Nodup :=
    List.nodup_cons.mpr ⟨heax, (List.take_sublist n argRegs).nodup argRegs_nodup⟩
  have hlen : (argRegs.take n).length = args.length := by
    rw [List.length_take, hargs]
    exact Nat.min_eq_left hn
  have hmap : _ = nr :: args := map_assign regs hnodup (congrArg (· + 1) hlen)
  rw [List.map_cons] at hmap
  obtain ⟨hnr, htake⟩ := List.cons.inj hmap
  refine ⟨hnr, ?_⟩
  have hdrop : (argRegs.drop n).map (assign regs (.eax :: argRegs.take n) (nr :: args)) =
      (argRegs.drop n).map regs := by
    refine List.map_congr_left fun r hr => assign_of_not_mem ?_
    rw [List.mem_cons, not_or]
    refine ⟨fun h => absurd (h ▸ List.mem_of_mem_drop hr) (by decide), fun h => ?_⟩
    have happ := argRegs_nodup
    rw [← List.take_append_drop n argRegs] at happ
    exact (List.nodup_append.mp happ).2.2 r h r hr rfl
  calc argRegs.map (assign regs (.eax :: argRegs.take n) (nr :: args))
      = (argRegs.take n ++ argRegs.drop n).map (assign regs (.eax :: argRegs.take n)
        (nr :: args)) := by
        rw [List.take_append_drop]
    _ = args ++ (argRegs.drop n).map regs := by rw [List.map_append, htake, hdrop]

/-- **A function asks the kernel** for what it is called with, and where that answers, it returns
the answer, with everything preserved that has to be. -/
theorem wrapper_asks (k : Kernel) (mem : Memory) (c : Site) (trace : List Event) (nr : Word)
    {args : List Word} (hn : n ≤ 6)
    (hargs : args.length = n) :
    ∃ t : Word × List Event → State, run k mem (wrapper n) (c.called trace (nr :: args)) =
        (gate k mem trace nr (args ++ (argRegs.drop n).map c.regs)).map t ∧
      ∀ v trace', Returned c (nr :: args) v trace' (t (v, trace')) := by
  have hlen : (argRegs.take n).length = args.length := by
    rw [List.length_take, hargs]
    exact Nat.min_eq_left hn
  obtain ⟨hnr, hreq⟩ := loaded_args c.regs nr hn hargs
  let stack := (saved n |>.map c.regs).reverse ++ c.ret :: (nr :: args ++ c.stack)
  let regs' := assign c.regs (.eax :: argRegs.take n) (nr :: args)
  let after := fun p : Word × List Event =>
    assign (Function.update regs' .eax p.1) (saved n).reverse ((saved n).map c.regs).reverse
  refine ⟨fun p => ⟨after p, nr :: args ++ c.stack, p.2, some c.ret⟩, ?_, fun v trace' =>
    ⟨rfl, rfl, ?_, fun r hr => ?_, rfl⟩⟩
  · have hpush : run k mem ((saved n).map .push) (c.called trace (nr :: args)) =
        .ok ⟨c.regs, stack, trace, none⟩ := run_pushes _ _
    have hload : run k mem (loads ((saved n).length + 1) (.eax :: argRegs.take n))
        ⟨c.regs, stack, trace, none⟩ = .ok ⟨regs', stack, trace, none⟩ := by
      have hl : ((saved n).map c.regs).reverse.length = (saved n).length := by simp
      have hdrop : stack.drop ((saved n).length + 1) = nr :: args ++ c.stack := by
        rw [← List.drop_drop, ← hl, List.drop_left]
        rfl
      exact run_loads (s := ⟨c.regs, stack, trace, none⟩) (congrArg (· + 1) hlen) hdrop
    have hpop : ∀ p : Word × List Event, run k mem ((saved n).reverse.map .pop)
        ⟨Function.update regs' .eax p.1, stack, p.2, none⟩ =
          .ok ⟨after p, c.ret :: (nr :: args ++ c.stack), p.2, none⟩ := fun p =>
      run_pops (s := ⟨Function.update regs' .eax p.1, stack, p.2, none⟩) (by simp) rfl
    have hint : exec k mem ⟨regs', stack, trace, none⟩ .int =
        (gate k mem trace nr (args ++ (argRegs.drop n).map c.regs)).map fun p =>
          ⟨Function.update regs' .eax p.1, stack, p.2, none⟩ := by
      show gate k mem trace (regs' .eax) (argRegs.map regs') >>= _ = _
      rw [show regs' .eax = nr from hnr, show argRegs.map regs' = _ from hreq]
      rfl
    unfold wrapper
    rw [List.append_assoc, List.append_assoc, List.append_assoc, run_append, hpush]
    show run k mem (_ ++ _) _ = _
    rw [run_append, hload]
    show exec k mem ⟨regs', stack, trace, none⟩ .int >>= run k mem
      ((saved n).reverse.map .pop ++ [.ret]) = _
    rw [hint]
    cases gate k mem trace nr (args ++ (argRegs.drop n).map c.regs) with
    | error e => rfl
    | ok p =>
      show run k mem _ _ = _
      rw [run_append, hpop]
      rfl
  · show assign (Function.update regs' .eax v) _ _ Reg.eax = v
    rw [assign_of_not_mem (by rw [List.mem_reverse]; exact eax_not_mem_saved n),
      Function.update_self]
  · show assign (Function.update regs' .eax v) _ _ r = c.regs r
    by_cases hs : r ∈ saved n
    · -- It was saved, and is restored.
      have hmap : _ = ((saved n).map c.regs).reverse :=
        map_assign (Function.update regs' .eax v) (List.nodup_reverse.mpr (saved_nodup n)) (by simp)
      rw [← List.map_reverse] at hmap ⊢
      exact List.map_inj_left.mp hmap r (List.mem_reverse.mpr hs)
    · have htake : r ∉ argRegs.take n := fun h => hs (List.mem_filter.mpr ⟨h, decide_eq_true hr⟩)
      have heax : r ≠ .eax := fun h => absurd (h ▸ hr) (by decide)
      rw [assign_of_not_mem (by rwa [List.mem_reverse]), Function.update_of_ne heax]
      exact assign_of_not_mem (mt List.mem_cons.mp (not_or.mpr ⟨heax, htake⟩))

end RiscvSbt.Syscall.X86
