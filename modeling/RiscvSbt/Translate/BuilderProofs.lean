import RiscvSbt.Translate.Builder

/-! What each builder operation emits does when it runs.

A value `Denotes` what it evaluates to, and keeps denoting it while later code runs
(`Extends`): an emitted instruction writes only its own, fresh name. Each operation
has one rule, so translation functions are verified a bind at a time. -/
namespace RiscvSbt.Translate
open Isa (Word Reg)
open Ir (Ty Val Ref Value Instr BinOp Pred CastOp)
open Library Library.Emit

/-- The names a reference uses are below `n`. -/
def Below (n : Nat) : Ref → Prop
  | .const _ => True
  | .temp k => k < n

structure Denotes (v : Value) (ty : Ty) (x : Val) (n : Nat) (s : Ir.State) : Prop where
  ty : v.ty = ty
  eval : v.ref.eval s = x
  below : Below n v.ref

/-- Names were added; registers and memory are as they were. -/
structure Extends (n : Nat) (s : Ir.State) (n' : Nat) (s' : Ir.State) : Prop where
  le : n ≤ n'
  env : ∀ k, k < n → s'.env k = s.env k
  x : s'.x = s.x
  mem : s'.mem = s.mem

theorem Extends.refl (n : Nat) (s : Ir.State) : Extends n s n s :=
  ⟨Nat.le_refl n, fun _ _ => rfl, rfl, rfl⟩

theorem Extends.trans {n n' n'' : Nat} {s s' s'' : Ir.State} (a : Extends n s n' s')
    (b : Extends n' s' n'' s'') : Extends n s n'' s'' :=
  ⟨Nat.le_trans a.le b.le, fun k hk => (b.env k (Nat.lt_of_lt_of_le hk a.le)).trans (a.env k hk),
    b.x.trans a.x, b.mem.trans a.mem⟩

theorem Extends.define (n : Nat) (s : Ir.State) (v : Val) : Extends n s (n + 1) (s.define n v) :=
  ⟨Nat.le_succ n, fun _ hk => Function.update_of_ne (Nat.ne_of_lt hk) _ _, rfl, rfl⟩

theorem Denotes.extend {v : Value} {ty : Ty} {x : Val} {n n' : Nat} {s s' : Ir.State}
    (h : Denotes v ty x n s) (he : Extends n s n' s') : Denotes v ty x n' s' := by
  obtain ⟨hty, heval, hbelow⟩ := h
  refine ⟨hty, ?_, ?_⟩
  · cases hr : v.ref with
    | const c => rw [hr] at heval; exact heval
    | temp k =>
      rw [hr] at heval hbelow
      exact (he.env k hbelow).trans heval
  · cases hr : v.ref with
    | const c => trivial
    | temp k =>
      rw [hr] at hbelow
      exact Nat.lt_of_lt_of_le hbelow he.le

theorem denotes_i32 (c : Int) (n : Nat) (s : Ir.State) :
    Denotes (i32 c) .i32 (.i32 (BitVec.ofInt 32 c)) n s := ⟨rfl, rfl, trivial⟩

namespace Builder
variable {n : Nat} {s : Ir.State} {Q : Value → Nat → Ir.State → Prop}

/-- An instruction that runs defines a value. -/
theorem wp_define {ty : Ty} {i : Nat → Instr} {x : Val} (hs : Ir.step (i n) s = some (s.define n x))
    (h : ∀ v n' s', Extends n s n' s' → Denotes v ty x n' s' → Q v n' s') :
    wp Ir.step (define ty i) n s Q := by
  refine wp_bind (wp_fresh hs (wp_pure (h _ _ _ (Extends.define n s x) ⟨rfl, ?_,
    Nat.lt_succ_self n⟩)))
  exact Function.update_self n x s.env

theorem wp_load (r : Reg)
    (h : ∀ v n' s', Extends n s n' s' → Denotes v .i32 (.i32 (s.x r)) n' s' → Q v n' s') :
    wp Ir.step (load r) n s Q := wp_define rfl h

theorem wp_bin {a b : Value} {x y z : Word} (op : BinOp) (ha : Denotes a .i32 (.i32 x) n s)
    (hb : Denotes b .i32 (.i32 y) n s) (hz : op.eval x y = some z)
    (h : ∀ v n' s', Extends n s n' s' → Denotes v .i32 (.i32 z) n' s' → Q v n' s') :
    wp Ir.step (define a.ty (.bin · op a.ref b.ref)) n s Q := by
  rw [ha.ty]
  refine wp_define ?_ h
  simp [Ir.step, ha.eval, hb.eval, hz]

theorem wp_icmp {a b : Value} {x y : Word} (p : Pred) (ha : Denotes a .i32 (.i32 x) n s)
    (hb : Denotes b .i32 (.i32 y) n s)
    (h : ∀ v n' s', Extends n s n' s' →
      Denotes v .i1 (.i1 (BitVec.ofBool (p.eval x y))) n' s' → Q v n' s') :
    wp Ir.step (define .i1 (.icmp · p a.ref b.ref)) n s Q := by
  refine wp_define ?_ h
  simp [Ir.step, ha.eval, hb.eval]

theorem wp_cast {a : Value} {ty ty' : Ty} {x z : Val} (op : CastOp) (ha : Denotes a ty x n s)
    (hz : op.eval x ty' = some z)
    (h : ∀ v n' s', Extends n s n' s' → Denotes v ty' z n' s' → Q v n' s') :
    wp Ir.step (define ty' (.cast · op a.ref ty')) n s Q := by
  refine wp_define ?_ h
  simp [Ir.step, ha.eval, hz]

theorem wp_gep {p i : Value} {ty : Ty} {a o : Word} (hp : Denotes p (.ptr ty) (.ptr a) n s)
    (hi : Denotes i .i32 (.i32 o) n s)
    (h : ∀ v n' s', Extends n s n' s' → Denotes v (.ptr ty) (.ptr (a + o)) n' s' → Q v n' s') :
    wp Ir.step (gep p i) n s Q := by
  unfold gep
  rw [hp.ty]
  refine wp_define ?_ h
  simp [Ir.step, hp.eval, hi.eval]

theorem wp_loadPtr {p : Value} {ty : Ty} {a : Word} {z : Val}
    (hp : Denotes p (.ptr ty) (.ptr a) n s) (hz : Ir.loadVal s.mem a ty = some z)
    (h : ∀ v n' s', Extends n s n' s' → Denotes v ty z n' s' → Q v n' s') :
    wp Ir.step (loadPtr p) n s Q := by
  unfold loadPtr
  rw [hp.ty]
  refine wp_define ?_ h
  simp [Ir.step, hp.eval, hz]

/-- `inttoptr` of an address. -/
theorem wp_intToPtr {a : Value} {x : Word} (ty : Ty) (ha : Denotes a .i32 (.i32 x) n s)
    (h : ∀ v n' s', Extends n s n' s' → Denotes v (.ptr ty) (.ptr x) n' s' → Q v n' s') :
    wp Ir.step (bitOrPointerCast a (.ptr ty)) n s Q := by
  unfold bitOrPointerCast
  rw [ha.ty, if_neg (by simp)]
  exact wp_cast .intToPtr ha rfl h

/-- A pointer to another type, at the same address. -/
theorem wp_pointerCast {p : Value} {ty : Ty} {a : Word} (ty' : Ty)
    (hp : Denotes p (.ptr ty) (.ptr a) n s)
    (h : ∀ v n' s', Extends n s n' s' → Denotes v (.ptr ty') (.ptr a) n' s' → Q v n' s') :
    wp Ir.step (bitOrPointerCast p (.ptr ty')) n s Q := by
  unfold bitOrPointerCast
  rw [hp.ty]
  by_cases he : Ty.ptr ty = .ptr ty'
  · rw [if_pos he]
    exact wp_pure (h p n s (Extends.refl n s) (he ▸ hp))
  · rw [if_neg he]
    exact wp_cast .bitCast hp rfl h

section Effects
variable {Q : Unit → Nat → Ir.State → Prop}

theorem wp_store {v : Value} {w : Word} (r : Reg) (hv : Denotes v .i32 (.i32 w) n s)
    (h : Q () n (if r = 0 then s else {s with x := Function.update s.x r w})) :
    wp Ir.step (store v r) n s Q := by
  unfold store
  by_cases hr : r = 0
  · rw [if_pos hr] at h ⊢
    exact wp_pure h
  · rw [if_neg hr] at h ⊢
    exact wp_plain (by simp [Ir.step, hv.eval]) h

theorem wp_storePtr {v p : Value} {ty ty' : Ty} {x : Val} {a : Word} {m : Isa.Memory}
    (hv : Denotes v ty x n s) (hp : Denotes p (.ptr ty') (.ptr a) n s)
    (hm : Ir.storeVal s.mem a x = some m) (h : Q () n {s with mem := m}) :
    wp Ir.step (storePtr v p) n s Q :=
  wp_plain (by simp [Ir.step, hv.eval, hp.eval, hm]) h

end Effects
end Builder
end RiscvSbt.Translate
