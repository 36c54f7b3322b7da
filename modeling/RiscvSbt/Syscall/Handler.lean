import RiscvSbt.Syscall.Wrapper

/-! The handler of system calls.

Of any table it makes a switch whose cases pass the arguments of their row on to the host's call,
and whose default ends the process. Of the table that there is it makes what the guest expects: the
service that it has the number of, with the arguments of its registers (`rv_syscall_eq`). -/
namespace RiscvSbt.Syscall
open Isa (Word Memory)
open X86 (argRegs gate text wrapper)

variable {h : Host} {mem : Memory} {trace : List Event} {sc : Word} {params : List Word}
  {table : List Row} {row : Row}

namespace Host

/-- **A call of an x86 function** is what its instructions ask the kernel for. -/
theorem call_eq (h : Host) (mem : Memory) (trace : List Event) (nr : Word)
    {n : Nat} {args : List Word}
    (hn : n < declared) (hargs : args.length = n) : h.call mem trace n (nr :: args) =
      gate h.kernel mem trace nr (args ++ (argRegs.drop n).map (h.site trace).regs) := by
  have hle : n ≤ 6 := Nat.le_trans (Nat.le_of_lt hn) (by decide)
  obtain ⟨code, hcode⟩ : ∃ code, text n = some code := by
    match n, hn with
    | 0, _ | 1, _ | 2, _ | 3, _ | 4, _ => exact ⟨_, rfl⟩
  obtain ⟨t, hrun, hret⟩ := X86.wrapper_asks h.kernel mem (h.site trace) trace nr hle hargs
  unfold call
  rw [hcode]
  dsimp only
  rw [if_pos ⟨hn, congrArg (· + 1) hargs⟩, (X86.text_eq hcode).2, hrun]
  cases gate h.kernel mem trace nr (args ++ (argRegs.drop n).map (h.site trace).regs) with
  | error e => rfl
  | ok p =>
    obtain ⟨v, trace'⟩ := p
    have ht := hret v trace'
    show Except.ok ((t (v, trace')).regs .eax, (t (v, trace')).trace) = _
    rw [ht.eax, ht.trace]

end Host

/-! ### Any table -/

theorem lookup_addCase : (table.map addCase).lookup sc =
    (table.find? fun row => sc == BitVec.ofNat 32 row.rv).map fun row => (addCase row).2 := by
  induction table with
  | nil => rfl
  | cons row table ih =>
    rw [List.map_cons, List.find?_cons]
    cases h : sc == BitVec.ofNat 32 row.rv with
    | true => simp [List.lookup_cons, addCase, h]
    | false =>
      rw [← ih]
      simp [List.lookup_cons, addCase, h]

theorem mapM_args {n : Nat} (hn : n ≤ params.length) :
    ((List.range n).map fun i => Operand.arg (i + 1)).mapM (Operand.eval (sc :: params)) =
      some (params.take n) := by
  induction n with
  | zero => rfl
  | succ n ih =>
    have hget : (Operand.arg (n + 1)).eval (sc :: params) = params[n]? := rfl
    rw [List.range_succ, List.map_append, List.mapM_append, ih (Nat.le_of_succ_le hn),
      List.take_add_one,
      List.getElem?_eq_getElem hn]
    simp [List.mapM_cons, hget, List.getElem?_eq_getElem hn]

/-- The arguments of a call are those of its row. -/
theorem mapM_setArgs {nr : Word} {n : Nat} (hn : n ≤ params.length) :
    (setArgs nr n).mapM (Operand.eval (sc :: params)) = some (nr :: params.take n) := by
  unfold setArgs
  rw [List.mapM_cons, mapM_args hn]
  rfl

/-- **The case of a row**: the kernel is asked for the host's call, with the first of the
arguments. -/
theorem handle_row (hrow : table.find? (fun row => sc == BitVec.ofNat 32 row.rv) = some row)
    (hargs : row.args < declared) (hparams : row.args ≤ params.length) :
    h.handle mem trace (genHandler table) (sc :: params) =
      gate h.kernel mem trace (BitVec.ofNat 32 row.x86)
        (params.take row.args ++ (argRegs.drop row.args).map (h.site trace).regs) := by
  have hcall := h.call_eq mem trace (BitVec.ofNat 32 row.x86) hargs (List.length_take_of_le hparams)
  show h.block mem trace (((table.map addCase).lookup sc).getD _) _ = _
  rw [lookup_addCase, hrow]
  show h.block mem trace (addCase row).2 (sc :: params) = _
  unfold Host.block
  rw [show ((addCase row).2.args.mapM _) = _ from mapM_setArgs hparams]
  show h.call mem trace row.args _ >>= _ = _
  rw [hcall]
  cases gate h.kernel mem trace (BitVec.ofNat 32 row.x86) _ with
  | error e => rfl
  | ok p => rfl

/-- **The default**: the process ends. -/
theorem handle_default (hrow : table.find? (fun row => sc == BitVec.ofNat 32 row.rv) = none) :
    h.handle mem trace (genHandler table) (sc :: params) =
    .error (.exited (⟨.exit, [99], mem⟩ :: trace)) := by
  have hcall := h.call_eq mem trace X86_SYS_EXIT (n := 1) (by decide)
    (show [99].length = 1 from rfl)
  show h.block mem trace (((table.map addCase).lookup sc).getD _) _ = _
  rw [lookup_addCase, hrow]
  show h.call mem trace 1 [X86_SYS_EXIT, 99] >>= _ = _
  rw [hcall]
  rfl

/-- **The handler of any table**: it asks for the host's call of the row, with the arguments that
this one takes, and where there is no row it ends the process. -/
theorem handler_serves (h : Host) (mem : Memory) (trace : List Event) (table : List Row)
    (htable : ∀ row ∈ table, row.args < declared) (sc : Word) (params : List Word)
    (hparams : params.length + 1 = MAX_ARGS) : h.handle mem trace (genHandler table)
    (sc :: params) =
      (table.find? fun row => sc == BitVec.ofNat 32 row.rv).elim
        (.error (.exited (⟨.exit, [99], mem⟩ :: trace))) fun row =>
        gate h.kernel mem trace (BitVec.ofNat 32 row.x86)
          (params.take row.args ++ (argRegs.drop row.args).map (h.site trace).regs) := by
  cases hrow : table.find? fun row => sc == BitVec.ofNat 32 row.rv with
  | none => exact handle_default hrow
  | some row =>
    have hargs := htable row (List.mem_of_find?_eq_some hrow)
    refine handle_row hrow hargs ?_
    rw [Nat.succ.inj hparams]
    exact Nat.le_trans (Nat.le_of_lt hargs) (by decide)

/-- A host that writes all of its three bytes, and a table that has another call. -/
theorem read_serves : (⟨fun _ _ => 3, fun _ => ⟨fun _ => 0, 0, []⟩⟩ : Host).handle (fun _ => 0) []
      (genHandler (⟨3, 63, 3⟩ :: scv)) [64, 1, 2, 3, 4, 5, 6] =
    .ok (3, [⟨.write, [1, 2, 3], fun _ => 0⟩]) :=
  handler_serves _ (fun _ => 0) [] (⟨3, 63, 3⟩ :: scv) (by decide) 64 [1, 2, 3, 4, 5, 6] rfl

/-! ### The services -/

/-- A row for each service. -/
theorem find_scv (hs : Service.ofRv sc = some s) : ∃ row,
    scv.find? (fun row => sc == BitVec.ofNat 32 row.rv) = some row ∧ row.args = s.args ∧
      row.args < declared ∧ Service.ofX86 (BitVec.ofNat 32 row.x86) = some s := by
  unfold Service.ofRv at hs
  split at hs
  next hsc =>
    obtain rfl := Option.some.inj hs
    exact ⟨⟨1, 93, 1⟩, by rw [hsc]; rfl, rfl, by decide, rfl⟩
  next hne =>
    split at hs
    next hsc =>
      obtain rfl := Option.some.inj hs
      exact ⟨⟨3, 64, 4⟩, by rw [hsc]; rfl, rfl, by decide, rfl⟩
    next => cases hs

theorem find_scv_none (hs : Service.ofRv sc = none) :
    scv.find? (fun row => sc == BitVec.ofNat 32 row.rv) = none := by
  unfold Service.ofRv at hs
  refine List.find?_eq_none.mpr fun row hrow => ?_
  rw [beq_iff_eq]
  rintro rfl
  rcases List.mem_cons.mp hrow with rfl | hrow
  · cases hs
  · obtain rfl := List.mem_singleton.mp hrow
    cases hs

/-- What the kernel does not look at does not matter. -/
theorem ask_append {k : Kernel} {s : Service} {args rest : List Word}
    (hargs : args.length = s.args) : k.ask mem trace s (args ++ rest) = k.ask mem trace s args := by
  unfold Kernel.ask
  rw [← hargs, List.take_left, List.take_length]

theorem ask_take {k : Kernel} {s : Service} :
    k.ask mem trace s (params.take s.args) = k.ask mem trace s params := by
  unfold Kernel.ask
  rw [List.take_take, Nat.min_self]

theorem args_le (s : Service) : s.args ≤ 6 := by
  cases s with
  | exit => decide
  | write => decide

/-- **A system call of the guest** is one of the host, for the same service and with the same
arguments; what the guest may not ask for ends the process. -/
theorem rv_syscall_eq (h : Host) (mem : Memory) (trace : List Event) (sc : Word)
    (hparams : params.length = 6) : h.rv_syscall mem trace (sc :: params) =
    (Service.ofRv sc).elim (.error (.exited (⟨.exit, [99], mem⟩ :: trace)))
      (h.kernel.ask mem trace · params) := by
  cases hs : Service.ofRv sc with
  | none => exact handle_default (find_scv_none hs)
  | some s =>
    obtain ⟨row, hrow, hargs, hlt, hx86⟩ := find_scv hs
    have hle : row.args ≤ params.length := by
      rw [hparams, hargs]
      exact args_le s
    have hlen : (params.take s.args).length = s.args := List.length_take_of_le (hargs ▸ hle)
    refine (handle_row hrow hlt hle).trans ?_
    unfold gate
    rw [hx86, hargs]
    exact (ask_append hlen).trans ask_take

end RiscvSbt.Syscall
