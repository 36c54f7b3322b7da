import RiscvSbt.Block.Split
import RiscvSbt.Block.Translate
import Mathlib.Data.List.Range

/-! What the instructions of a block are the code of.

`Code s a l e`: the list `l`, read from its head, is the code of the guest instructions
from `a` up to `e`. It either runs off its end, or leaves by the terminator that its
last guest instruction calls for, or by a branch to the block of `e`. -/
namespace RiscvSbt.Block
open Library

/-- Whether the code of an instruction ends in an untracked block. -/
def Act.leaves (opts : Options) : Act → Bool
  | .icall => !opts.icallIntOnly && !(opts.syncOnExternalCalls && opts.useICallerForIIntFuncs)
  | .cvt => opts.enableFCVTValidation
  | _ => false

/-- Whether the code of an instruction stays in its block, and goes on there. -/
def Act.stays (opts : Options) : Act → Bool
  | .next | .call _ => true
  | .icall => !(Act.icall.leaves opts)
  | .cvt => !(Act.cvt.leaves opts)
  | _ => false

section Predicates
variable (opts : Options) (body : Nat → Inst) (s : State)

/-- The terminators an instruction at `a` can end with. -/
inductive Term (a : Nat) : Kind → Prop where
  | branch {t : Nat} {bt bn : Nat} (act : (body a).act = .branch t)
      (target : s.findBB t = some bt) (next : s.findBB (a + 4) = some bn) :
      Term a (.condBr (.guest a) bt bn)
  | jump {t : Nat} {bt : Nat} (act : (body a).act = .jump t)
      (target : s.findBB t = some bt) : Term a (.br bt)
  | ret (act : (body a).act = .ret ∨ ∃ t, (body a).act = .tail t) : Term a .ret
  | ijump (act : (body a).act = .ijump) : Term a .indBr
  | leave {u v : Nat} (act : (body a).act.leaves opts = true) (hu : u ∈ s.ubbs a)
      (hv : v ∈ s.ubbs a) : Term a (.condBr .helper u v)

/-- The rest of the code of an instruction that ends its block. -/
inductive Ends (a : Nat) : List Instr → Prop where
  | skip {i : Instr} {l : List Instr} (kind : i.kind = .op) (mark : s.marks i.id = none)
      (rest : Ends a l) : Ends a (i :: l)
  | term {i : Instr} (mark : s.marks i.id = none) (term : Term opts body s a i.kind) :
      Ends a [i]

inductive Code : Nat → List Instr → Nat → Prop where
  | stop (a : Nat) : Code a [] a
  | glue {a : Nat} {i : Instr} {b : Nat} (mark : s.marks i.id = none)
      (kind : i.kind = .br b) (find : s.findBB a = some b) : Code a [i] a
  | skip {a e : Nat} {i : Instr} {l : List Instr} (kind : i.kind = .op)
      (mark : s.marks i.id = none) (rest : Code a l e) : Code a (i :: l) e
  | visit {a e : Nat} {i : Instr} {l : List Instr} (kind : i.kind = .op)
      (mark : s.marks i.id = some a) (act : (body a).act.stays opts = true)
      (rest : Code (a + 4) l e) : Code a (i :: l) e
  | enter {a : Nat} {i : Instr} {l : List Instr} (kind : i.kind = .op)
      (mark : s.marks i.id = some a) (rest : Ends opts body s a l) : Code a (i :: l) (a + 4)
  | term {a : Nat} {i : Instr} (mark : s.marks i.id = some a)
      (term : Term opts body s a i.kind) : Code a [i] (a + 4)

/-- Instructions that neither touch control flow nor start a guest instruction. -/
def Quiet (l : List Instr) : Prop := ∀ i ∈ l, i.kind = .op ∧ s.marks i.id = none

end Predicates

variable {opts : Options} {body : Nat → Inst} {s t : State}

/-! ### Quiet code -/

theorem Quiet.nil : Quiet s [] := fun _ h => nomatch h

theorem Quiet.cons {i : Instr} {l : List Instr} (hk : i.kind = .op) (hm : s.marks i.id = none)
    (h : Quiet s l) : Quiet s (i :: l) := by
  intro j hj
  rcases List.mem_cons.mp hj with rfl | hj
  · exact ⟨hk, hm⟩
  · exact h j hj

theorem Quiet.append {l m : List Instr} (hl : Quiet s l) (hm : Quiet s m) : Quiet s (l ++ m) := by
  intro i hi
  rcases List.mem_append.mp hi with h | h
  · exact hl i h
  · exact hm i h

theorem Quiet.straight {l : List Instr} (h : Quiet s l) : Straight l := fun i hi => (h i hi).1

theorem Quiet.ends {a : Nat} {l m : List Instr} (hl : Quiet s l) (hm : Ends opts body s a m) :
    Ends opts body s a (l ++ m) := by
  induction l with
  | nil => exact hm
  | cons i rest ih =>
    obtain ⟨hk, hi⟩ := hl i List.mem_cons_self
    exact .skip hk hi (ih fun j hj => hl j (List.mem_cons_of_mem _ hj))

theorem Quiet.code {a e : Nat} {l m : List Instr} (hl : Quiet s l)
    (hm : Code opts body s a m e) : Code opts body s a (l ++ m) e := by
  induction l with
  | nil => exact hm
  | cons i rest ih =>
    obtain ⟨hk, hi⟩ := hl i List.mem_cons_self
    exact .skip hk hi (ih fun j hj => hl j (List.mem_cons_of_mem _ hj))

/-! ### Terminators -/

theorem Term.isTerminator {a : Nat} {k : Kind} (h : Term opts body s a k) :
    k.isTerminator = true := by
  cases h <;> rfl

theorem Term.not_stays {a : Nat} {k : Kind} (h : Term opts body s a k) :
    (body a).act.stays opts = false := by
  cases h with
  | branch act => rw [act]; rfl
  | jump act => rw [act]; rfl
  | ret act =>
    rcases act with act | ⟨t, act⟩
    · rw [act]; rfl
    · rw [act]; rfl
  | ijump act => rw [act]; rfl
  | leave act =>
    cases hact : (body a).act with
    | icall => rw [hact] at act; simp only [Act.stays, act, Bool.not_true]
    | cvt => rw [hact] at act; simp only [Act.stays, act, Bool.not_true]
    | _ => rw [hact] at act; exact nomatch act

theorem Term.helper {a : Nat} {k : Kind} (h : Term opts body s a k)
    (hl : (body a).act.leaves opts = true) :
    ∃ u v, k = .condBr .helper u v ∧ u ∈ s.ubbs a ∧ v ∈ s.ubbs a := by
  cases h with
  | leave act hu hv => exact ⟨_, _, rfl, hu, hv⟩
  | ret act =>
    rcases act with act | ⟨t, act⟩
    · rw [act] at hl
      exact nomatch hl
    · rw [act] at hl
      exact nomatch hl
  | branch act | jump act | ijump act =>
    rw [act] at hl
    exact nomatch hl

/-- An instruction that ends its block ends it with one of its terminators. -/
theorem Ends.terminator {a : Nat} {l : List Instr} (h : Ends opts body s a l) :
    ∃ m i, l = m ++ [i] ∧ Quiet s m ∧ s.marks i.id = none ∧ Term opts body s a i.kind := by
  induction h with
  | skip kind mark _ ih =>
    obtain ⟨m, i, rfl, hm, hi, ht⟩ := ih
    exact ⟨_ :: m, i, rfl, hm.cons kind mark, hi, ht⟩
  | @term i mark term => exact ⟨[], i, rfl, .nil, mark, term⟩

/-- Code either runs off its end or is terminated. -/
theorem Code.straight_or {a e : Nat} {l : List Instr} (h : Code opts body s a l e) :
    Straight l ∨ ∃ m i, l = m ++ [i] ∧ Straight m ∧ i.kind.isTerminator = true ∧
      ((∃ b, i.kind = .br b ∧ s.findBB e = some b ∧ s.marks i.id = none) ∨
        ∃ c, c + 4 = e ∧ Term opts body s c i.kind) := by
  have hcons : ∀ {i : Instr} {l : List Instr} {P : Instr → Prop}, i.kind = .op →
      (Straight l ∨ ∃ m j, l = m ++ [j] ∧ Straight m ∧ j.kind.isTerminator = true ∧ P j) →
      Straight (i :: l) ∨ ∃ m j, i :: l = m ++ [j] ∧ Straight m ∧ j.kind.isTerminator = true ∧
        P j := by
    intro i l P hk h
    have hi : Straight [i] := fun j hj => by rw [List.mem_singleton.mp hj, hk]
    rcases h with h | ⟨m, j, rfl, hm, hj⟩
    · exact .inl (hi.append h)
    · exact .inr ⟨i :: m, j, rfl, hi.append hm, hj⟩
  induction h with
  | stop a => exact .inl .nil
  | @glue a i b mark kind find =>
    exact .inr ⟨[], i, rfl, .nil, by rw [kind]; rfl, .inl ⟨b, kind, find, mark⟩⟩
  | skip kind mark _ ih => exact hcons kind ih
  | visit kind mark act _ ih => exact hcons kind ih
  | @enter a i l kind mark rest =>
    obtain ⟨m, j, rfl, hm, -, hj⟩ := rest.terminator
    exact hcons kind (.inr ⟨m, j, rfl, hm.straight, hj.isTerminator, .inr ⟨a, rfl, hj⟩⟩)
  | @term a i mark term =>
    exact .inr ⟨[], i, rfl, .nil, term.isTerminator, .inr ⟨a, rfl, term⟩⟩

/-! ### Addresses -/

/-- The marks of code are its addresses, in order. -/
theorem Code.marks {a e : Nat} {l : List Instr} (h : Code opts body s a l e) :
    ∃ n, e = a + 4 * n ∧ l.filterMap (fun i => s.marks i.id) = List.range' a n 4 := by
  have hquiet : ∀ {l : List Instr}, Quiet s l → l.filterMap (fun i => s.marks i.id) = [] :=
    fun hl => List.filterMap_eq_nil_iff.mpr fun i hi => (hl i hi).2
  induction h with
  | stop a => exact ⟨0, rfl, rfl⟩
  | glue mark kind find => exact ⟨0, rfl, List.filterMap_cons_none (by exact mark)⟩
  | skip kind mark _ ih =>
    obtain ⟨n, he, hl⟩ := ih
    exact ⟨n, he, by rw [List.filterMap_cons_none (by exact mark), hl]⟩
  | visit kind mark act _ ih =>
    obtain ⟨n, he, hl⟩ := ih
    exact ⟨n + 1, by omega, by rw [List.filterMap_cons_some (by exact mark), hl, List.range'_succ]⟩
  | enter kind mark rest =>
    obtain ⟨m, j, rfl, hm, hj, -⟩ := rest.terminator
    refine ⟨1, rfl, ?_⟩
    rw [List.filterMap_cons_some (by exact mark), List.filterMap_append, hquiet hm,
      List.filterMap_cons_none (by exact hj)]
    rfl
  | term mark term => exact ⟨1, rfl, List.filterMap_cons_some (by exact mark)⟩

theorem Code.le {a e : Nat} {l : List Instr} (h : Code opts body s a l e) : a ≤ e := by
  obtain ⟨n, he, -⟩ := h.marks
  omega

theorem Code.mod {a e : Nat} {l : List Instr} (h : Code opts body s a l e) : e % 4 = a % 4 := by
  obtain ⟨n, he, -⟩ := h.marks
  omega

/-- An address is marked in the code just if it is one of the code's. -/
theorem Code.marked {a e c : Nat} {l : List Instr} (h : Code opts body s a l e) :
    (∃ i ∈ l, s.marks i.id = some c) ↔ a ≤ c ∧ c < e ∧ c % 4 = a % 4 := by
  obtain ⟨n, he, hl⟩ := h.marks
  have hm : (∃ i ∈ l, s.marks i.id = some c) ↔ c ∈ List.range' a n 4 := by
    rw [← hl, List.mem_filterMap]
  rw [hm, List.mem_range']
  constructor
  · rintro ⟨i, hi, rfl⟩
    omega
  · rintro ⟨hle, hlt, hmod⟩
    exact ⟨(c - a) / 4, by omega, by omega⟩

/-- There are at least as many instructions as addresses. -/
theorem Code.length {a e : Nat} {l : List Instr} (h : Code opts body s a l e) :
    e ≤ a + l.length * 4 := by
  obtain ⟨n, he, hl⟩ := h.marks
  have hlen := List.length_filterMap_le (fun i => s.marks i.id) l
  rw [hl, List.length_range'] at hlen
  omega

/-! ### Joining and cutting -/

theorem Code.append {a b e : Nat} {l m : List Instr} (hs : Straight l)
    (hl : Code opts body s a l b) (hm : Code opts body s b m e) :
    Code opts body s a (l ++ m) e := by
  induction hl with
  | stop a => exact hm
  | skip kind mark _ ih =>
    exact .skip kind mark (ih (fun i hi => hs i (List.mem_cons_of_mem _ hi)) hm)
  | visit kind mark act _ ih =>
    exact .visit kind mark act (ih (fun i hi => hs i (List.mem_cons_of_mem _ hi)) hm)
  | glue mark kind find =>
    rw [hs _ List.mem_cons_self] at kind
    exact nomatch kind
  | enter kind mark rest =>
    obtain ⟨n, i, rfl, -, -, ht⟩ := rest.terminator
    have := ht.isTerminator
    rw [hs i (by simp)] at this
    exact nomatch this
  | term mark term =>
    have := term.isTerminator
    rw [hs _ List.mem_cons_self] at this
    exact nomatch this

/-- The code up to an address of it, and the code from there on. -/
theorem Code.cut {a c e : Nat} {l : List Instr} (h : Code opts body s a l e) (hle : a ≤ c)
    (hlt : c < e) (hmod : c % 4 = a % 4) :
    ∃ top i bottom, l = top ++ i :: bottom ∧ s.marks i.id = some c ∧ Straight top ∧
      Code opts body s a top c ∧ Code opts body s c (i :: bottom) e := by
  induction h with
  | stop a => omega
  | glue mark kind find => omega
  | @skip a e i l kind mark _ ih =>
    obtain ⟨top, j, bottom, rfl, hj, hs, ht, hb⟩ := ih hle hlt hmod
    exact ⟨i :: top, j, bottom, rfl, hj,
      Straight.append (fun x hx => by rw [List.mem_singleton.mp hx, kind]) hs,
      .skip kind mark ht, hb⟩
  | @visit a e i l kind mark act rest ih =>
    rcases Nat.eq_or_lt_of_le hle with rfl | hlt'
    · exact ⟨[], i, l, rfl, mark, .nil, .stop a, .visit kind mark act rest⟩
    · obtain ⟨top, j, bottom, rfl, hj, hs, ht, hb⟩ := ih (by omega) hlt (by omega)
      exact ⟨i :: top, j, bottom, rfl, hj,
        Straight.append (fun x hx => by rw [List.mem_singleton.mp hx, kind]) hs,
        .visit kind mark act ht, hb⟩
  | @enter a i l kind mark rest =>
    obtain rfl : c = a := by omega
    exact ⟨[], i, l, rfl, mark, .nil, .stop c, .enter kind mark rest⟩
  | @term a i mark term =>
    obtain rfl : c = a := by omega
    exact ⟨[], i, [], rfl, mark, .nil, .stop c, .term mark term⟩

/-! ### Keeping code -/

/-- Blocks are only ever added to the maps of a function. -/
structure Grows (s t : State) : Prop where
  find : ∀ k b, s.findBB k = some b → t.findBB k = some b
  ubbs : ∀ a b, b ∈ s.ubbs a → b ∈ t.ubbs a

theorem Grows.refl (s : State) : Grows s s := ⟨fun _ _ h => h, fun _ _ h => h⟩

theorem Term.grow {a : Nat} {k : Kind} (g : Grows s t) (h : Term opts body s a k) :
    Term opts body t a k := by
  cases h with
  | branch act target next => exact .branch act (g.find _ _ target) (g.find _ _ next)
  | jump act target => exact .jump act (g.find _ _ target)
  | ret act => exact .ret act
  | ijump act => exact .ijump act
  | leave act hu hv => exact .leave act (g.ubbs _ _ hu) (g.ubbs _ _ hv)

theorem Ends.grow {a : Nat} {l : List Instr} (g : Grows s t)
    (hm : ∀ i ∈ l, t.marks i.id = s.marks i.id) (h : Ends opts body s a l) :
    Ends opts body t a l := by
  induction h with
  | skip kind mark _ ih =>
    refine .skip kind ((hm _ List.mem_cons_self).trans mark) (ih fun i hi => ?_)
    exact hm i (List.mem_cons_of_mem _ hi)
  | term mark term => exact .term ((hm _ List.mem_cons_self).trans mark) (term.grow g)

theorem Code.grow {a e : Nat} {l : List Instr} (g : Grows s t)
    (hm : ∀ i ∈ l, t.marks i.id = s.marks i.id) (h : Code opts body s a l e) :
    Code opts body t a l e := by
  induction h with
  | stop a => exact .stop a
  | glue mark kind find =>
    exact .glue ((hm _ List.mem_cons_self).trans mark) kind (g.find _ _ find)
  | skip kind mark _ ih =>
    refine .skip kind ((hm _ List.mem_cons_self).trans mark) (ih fun i hi => ?_)
    exact hm i (List.mem_cons_of_mem _ hi)
  | visit kind mark act _ ih =>
    refine .visit kind ((hm _ List.mem_cons_self).trans mark) act (ih fun i hi => ?_)
    exact hm i (List.mem_cons_of_mem _ hi)
  | enter kind mark rest =>
    refine .enter kind ((hm _ List.mem_cons_self).trans mark) (rest.grow g fun i hi => ?_)
    exact hm i (List.mem_cons_of_mem _ hi)
  | term mark term => exact .term ((hm _ List.mem_cons_self).trans mark) (term.grow g)

theorem Quiet.grow {l : List Instr} (hm : ∀ i ∈ l, t.marks i.id = s.marks i.id)
    (h : Quiet s l) : Quiet t l := fun i hi => ⟨(h i hi).1, (hm i hi).trans (h i hi).2⟩

end RiscvSbt.Block
