import RiscvSbt.Syscall.Machine

/-! What the kernel was asked for is not forgotten: no part of a call takes anything back. -/
namespace RiscvSbt.Syscall
open Isa (Word Memory)

variable {α β : Type} {trace : List Event} {k : Kernel} {mem : Memory}

/-- What comes out of a computation is behind a trace. -/
structure Keeps (trace : List Event) (r : Except Stop α) (of : α → List Event) : Prop where
  ok : ∀ a, r = .ok a → trace <:+ of a
  exited : ∀ t, r = .error (.exited t) → trace <:+ t

namespace Keeps
variable {r : Except Stop α} {of : α → List Event} {of' : β → List Event}

theorem pure {a : α} (h : trace <:+ of a) : Keeps trace (.ok a) of := by
  refine ⟨fun b hb => ?_, fun t ht => ?_⟩
  · obtain rfl := Except.ok.inj hb
    exact h
  · cases ht

theorem answer {v : Word} {t : List Event} (h : trace <:+ t) : Keeps trace (.ok (v, t)) Prod.snd :=
    pure h

theorem lost : Keeps trace (.error .lost : Except Stop α) of := by
  refine ⟨fun a ha => ?_, fun t ht => ?_⟩
  · cases ha
  · cases ht

theorem bind {g : α → Except Stop β} (h : Keeps trace r of) (hg : ∀ a, Keeps (of a) (g a) of') :
    Keeps trace (r >>= g) of' := by
  cases r with
  | ok a => exact ⟨fun b hb => (h.ok a rfl).trans ((hg a).ok b hb),
      fun t ht => (h.ok a rfl).trans ((hg a).exited t ht)⟩
  | error e =>
    refine ⟨fun b hb => ?_, fun t ht => h.exited t ?_⟩
    · cases hb
    · cases ht
      rfl

end Keeps

theorem ask_keeps (s : Service) (args : List Word) :
    Keeps trace (k.ask mem trace s args) Prod.snd := by
  cases s with
  | exit =>
    refine ⟨fun a ha => ?_, fun t ht => ?_⟩
    · cases ha
    · cases ht
      exact List.suffix_cons _ _
  | write => exact .answer (List.suffix_cons _ _)

namespace X86

theorem gate_keeps (nr : Word) (args : List Word) :
    Keeps trace (gate k mem trace nr args) Prod.snd := by
  unfold gate
  cases Service.ofX86 nr with
  | none => exact .lost
  | some s => exact ask_keeps s args

theorem pop_keeps (s : State) : Keeps s.trace s.pop fun p => p.2.trace := by
  unfold State.pop
  cases s.stack with
  | nil => exact .lost
  | cons w stack => exact .pure (List.suffix_refl _)

theorem exec_keeps (s : State) (i : Instr) : Keeps s.trace (exec k mem s i) State.trace := by
  cases i with
  | push r => exact .pure (List.suffix_refl _)
  | pop r => exact (pop_keeps s).bind fun p => .pure (List.suffix_refl _)
  | movl off dst =>
    unfold exec
    dsimp only
    cases s.stack[off / 4]? with
    | none => exact .lost
    | some w => exact .pure (List.suffix_refl _)
  | int => exact (gate_keeps _ _).bind fun p => .pure (List.suffix_refl _)
  | ret => exact (pop_keeps s).bind fun p => .pure (List.suffix_refl _)

theorem run_keeps (code : List Instr) (s : State) :
    Keeps s.trace (run k mem code s) State.trace := by
  induction code generalizing s with
  | nil => exact .pure (List.suffix_refl _)
  | cons i code ih => exact (exec_keeps s i).bind ih

end X86

namespace Host
variable {h : Host}

theorem call_keeps (n : Nat) (args : List Word) :
    Keeps trace (h.call mem trace n args) Prod.snd := by
  unfold call
  cases X86.text n with
  | none => exact .lost
  | some code =>
    dsimp only
    split
    next =>
      have hrun : Keeps trace (X86.run h.kernel mem code ((h.site trace).called trace args))
          X86.State.trace := X86.run_keeps code ((h.site trace).called trace args)
      exact hrun.bind fun _ => .answer (List.suffix_refl _)
    next => exact .lost

theorem block_keeps (b : Block) (args : List Word) :
    Keeps trace (h.block mem trace b args) Prod.snd := by
  unfold block
  cases b.args.mapM (Operand.eval args) with
  | none => exact .lost
  | some vs => exact (call_keeps b.callee vs).bind fun _ => .answer (List.suffix_refl _)

theorem rv_syscall_keeps (h : Host) (mem : Memory) (trace : List Event) (args : List Word) :
    Keeps trace (h.rv_syscall mem trace args) Prod.snd := by
  unfold rv_syscall handle
  cases args with
  | nil => exact .lost
  | cons sc params => exact block_keeps _ _

end Host
end RiscvSbt.Syscall
