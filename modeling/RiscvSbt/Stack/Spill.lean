import RiscvSbt.Stack.Machine
import Mathlib.Tactic.IntervalCases

/-! When the loads of a frame return the same with `optStack` and without.

The guest stack and the spill variables are two memories, and an access is in one of them. A
byte that was stored through one and is loaded through the other is not the same with the
option and without. Nor is a byte that was stored to a variable at another offset of it. -/
namespace RiscvSbt.Stack
open Registers

variable {frame : Nat}

/-! ### Where accesses go -/

theorem setCFAOffs_prologue (hpos : 0 < frame) (h16 : frame % 16 = 0) :
    setCFAOffs true none (-frame) = .ok (some (-frame)) := by
  have hneg : -(frame : Int) < 0 := by omega
  have h16 : -(frame : Int) % 16 = 0 := by omega
  simp only [setCFAOffs, Bool.not_true, Bool.false_eq_true, if_false, hneg, if_true, pure_bind, h16]
  rfl

namespace Access

/-- A floating access by `sp`. -/
def redirected (a : Access frame) : Bool := a.op.isFloat && a.base = .sp

/-- An access to the variable of a word of the frame, that has the byte `j` of it. -/
def reaches (s : Access frame) (word j : Nat) : Bool :=
  s.redirected && s.offs / 4 = word && j < s.op.width

theorem spill_off (cfa : Int) (a : Access frame) : a.spill false cfa = none := by
  unfold spill getSpilledAddress
  split <;> rfl

theorem getSpilledAddress_inside (h16 : frame % 16 = 0) (a : Access frame) :
    getSpilledAddress true (-frame) a.offs = some ((frame : Int) - (4 * (a.offs / 4) : Nat)) := by
  have hw := a.op.width_pos
  have hin := a.inside
  have hoffs : (if (a.offs : Int) % 4 ≠ 0 then 4 * ((a.offs : Int) / 4) else a.offs)
      = (4 * (a.offs / 4) : Nat) := by
    split <;> omega
  have hidx : ¬ (frame : Int) - (4 * (a.offs / 4) : Nat) < 4 := by omega
  simp only [getSpilledAddress, Bool.not_true, Bool.false_eq_true, if_false, hoffs, hidx,
    neg_neg]

/-- Every floating access by `sp` has a variable inside of the frame. -/
theorem spill_on (h16 : frame % 16 = 0) (a : Access frame) :
    a.spill true (-frame)
      = if a.redirected then some ((frame : Int) - (4 * (a.offs / 4) : Nat)) else none := by
  unfold spill redirected
  rw [getSpilledAddress_inside h16]

end Access

/-! ### What was stored last -/

/-- The byte of the frame after accesses, the last one first, without the option. -/
def stackAt (init : Nat → BitVec 8) (values : Nat → BitVec 64) :
    List (Access frame) → Nat → BitVec 8
  | [], b => init b
  | s :: past, b =>
    if s.op.isStore && s.covers b then byte (values past.length) (b - s.offs)
    else stackAt init values past b

/-- The byte of the frame with the option: of the stores that are not redirected. -/
def directAt (init : Nat → BitVec 8) (values : Nat → BitVec 64) :
    List (Access frame) → Nat → BitVec 8
  | [], b => init b
  | s :: past, b =>
    if s.op.isStore && !s.redirected && s.covers b then byte (values past.length) (b - s.offs)
    else directAt init values past b

/-- The byte `j` of the variable of a word. -/
def spillAt (values : Nat → BitVec 64) : List (Access frame) → Nat → Nat → Option (BitVec 8)
  | [], _, _ => none
  | s :: past, word, j =>
    if s.op.isStore && s.reaches word j then some (byte (values past.length) j)
    else spillAt values past word j

/-- A byte without the option is the byte with it, for all values. -/
def ByteAgrees (past : List (Access frame)) (a : Access frame) (j : Nat) : Prop :=
  ∀ init values,
    (if a.redirected then spillAt values past (a.offs / 4) j
      else some (directAt init values past (a.offs + j)))
    = some (stackAt init values past (a.offs + j))

/-- The store that decides a byte of a load came by the way of the load: it is direct for a
direct load, and for a redirected one at the same offset. -/
def Unmixed (past : List (Access frame)) (a : Access frame) (j : Nat) : Prop :=
  if a.redirected then
    (past.find? fun s => s.op.isStore && (s.covers (a.offs + j) || s.reaches (a.offs / 4) j)).any
      fun s => s.redirected && s.offs = a.offs
  else
    (past.find? fun s => s.op.isStore && s.covers (a.offs + j)).all fun s => !s.redirected

instance (past : List (Access frame)) (a : Access frame) (j : Nat) :
    Decidable (Unmixed past a j) := by
  unfold Unmixed
  infer_instance

/-! ### A byte of a load -/

theorem byte_zero (j : Nat) : byte 0 j = 0 := by
  simp [byte]

theorem byte_allOnes {j : Nat} (h : j < 8) : byte (BitVec.allOnes 64) j = 0xff#8 := by
  interval_cases j <;> decide

/-- A value that has other bytes at two places. -/
theorem byte_separates {i j : Nat} (hi : i < 8) (hj : j < 8) (h : i ≠ j) :
    byte (1#64 <<< (8 * j)) i ≠ byte (1#64 <<< (8 * j)) j := by
  interval_cases i <;> interval_cases j <;> first | contradiction | decide

/-- A value for one place, and zero for the others. -/
def only (n : Nat) (v : BitVec 64) : Nat → BitVec 64 := fun p => if p = n then v else 0

@[simp] theorem only_self (n : Nat) (v : BitVec 64) : only n v n = v := by
  simp [only]

theorem only_before {n p : Nat} (v : BitVec 64) (h : p < n) : only n v p = 0 := by
  simp [only, Nat.ne_of_lt h]

section
variable (past : List (Access frame)) {values : Nat → BitVec 64}

theorem stackAt_zero (h : ∀ p < past.length, values p = 0) (b : Nat) :
    stackAt (fun _ => 0) values past b = 0 := by
  induction past with
  | nil => rfl
  | cons s past ih =>
    unfold stackAt
    split
    · rw [h _ (by simp), byte_zero]
    · exact ih fun p hp => h p (by simp; omega)

theorem directAt_zero (h : ∀ p < past.length, values p = 0) (b : Nat) :
    directAt (fun _ => 0) values past b = 0 := by
  induction past with
  | nil => rfl
  | cons s past ih =>
    unfold directAt
    split
    · rw [h _ (by simp), byte_zero]
    · exact ih fun p hp => h p (by simp; omega)

theorem spillAt_zero (h : ∀ p < past.length, values p = 0) (word j : Nat) :
    spillAt values past word j = none ∨ spillAt values past word j = some 0 := by
  induction past with
  | nil => exact .inl rfl
  | cons s past ih =>
    unfold spillAt
    split
    · rw [h _ (by simp), byte_zero]
      exact .inr rfl
    · exact ih fun p hp => h p (by simp; omega)

end

/-- A direct load of a byte. -/
theorem direct_iff (past : List (Access frame)) (b : Nat) :
    (∀ init values, directAt init values past b = stackAt init values past b)
      ↔ ∀ s, past.find? (fun s => s.op.isStore && s.covers b) = some s →
          s.redirected = false := by
  induction past with
  | nil => simp [directAt, stackAt]
  | cons s past ih =>
    by_cases hs : (s.op.isStore && s.covers b) = true
    · have hw : b - s.offs < 8 := by
        have := s.op.width_le
        simp [Access.covers] at hs
        omega
      simp only [List.find?_cons, hs]
      cases hr : s.redirected with
      | false =>
        simp [directAt, stackAt, hs, hr]
      | true =>
        -- the direct byte is from before the store, and the byte of the plain run is not
        have hne : directAt (fun _ => 0) (only past.length (BitVec.allOnes 64)) (s :: past) b
            ≠ stackAt (fun _ => 0) (only past.length (BitVec.allOnes 64)) (s :: past) b := by
          have hd : ¬ (s.op.isStore && !s.redirected && s.covers b) = true := by simp [hr]
          rw [stackAt, if_pos hs, only_self, byte_allOnes hw, directAt, if_neg hd,
            directAt_zero past fun p hp => only_before _ hp]
          decide
        constructor
        · intro h
          exact absurd (h _ _) hne
        · intro h
          simpa [hr] using h s rfl
    · have hd : (s.op.isStore && !s.redirected && s.covers b) = false := by grind
      rw [Bool.not_eq_true] at hs
      simp only [List.find?_cons, hs, directAt, stackAt, hd, Bool.false_eq_true, if_false, ih]

/-- A store that is redirected to the variable of a load, at its offset, and a byte of both. -/
theorem covers_iff_reaches {s a : Access frame} {j : Nat} (hr : s.redirected)
    (ho : s.offs = a.offs) : s.covers (a.offs + j) = s.reaches (a.offs / 4) j := by
  simp [Access.covers, Access.reaches, hr, ho]

/-- The byte of a redirected load, after a store to the byte or to its place in the variable. -/
theorem spill_touched (past : List (Access frame)) {s a : Access frame} {j : Nat} (hj : j < 8)
    (hs : s.op.isStore) (ht : s.covers (a.offs + j) || s.reaches (a.offs / 4) j) :
    (∀ init values, spillAt values (s :: past) (a.offs / 4) j
        = some (stackAt init values (s :: past) (a.offs + j)))
      ↔ s.redirected ∧ s.offs = a.offs := by
  let ones := only past.length (BitVec.allOnes 64)
  have hones : ∀ p < past.length, ones p = 0 := fun p hp => only_before _ hp
  have hself : ones past.length = BitVec.allOnes 64 := only_self _ _
  have hw : s.covers (a.offs + j) → a.offs + j - s.offs < 8 := by
    have := s.op.width_le
    simp only [Access.covers, Bool.and_eq_true, decide_eq_true_eq]
    omega
  constructor
  · intro h
    -- a store to one of the two leaves what was in the other
    have hc : s.covers (a.offs + j) = true := by
      by_contra hc
      rw [Bool.not_eq_true] at hc
      have hre : s.reaches (a.offs / 4) j = true := by simpa [hc] using ht
      have hne := h (fun _ => 0) ones
      simp only [spillAt, stackAt, hs, hc, hre, Bool.and_true, Bool.and_false, if_true,
        Bool.false_eq_true, if_false, hself, byte_allOnes hj, stackAt_zero past hones] at hne
      contradiction
    have hre : s.reaches (a.offs / 4) j = true := by
      by_contra hre
      rw [Bool.not_eq_true] at hre
      have hne := h (fun _ => 0) ones
      simp only [spillAt, stackAt, hs, hc, hre, Bool.and_true, Bool.and_false, if_true,
        Bool.false_eq_true, if_false, hself, byte_allOnes (hw hc)] at hne
      rcases spillAt_zero past hones (a.offs / 4) j with h0 | h0 <;> rw [h0] at hne <;>
        contradiction
    have hr : s.redirected = true := by
      simp only [Access.reaches, Bool.and_eq_true] at hre
      exact hre.1.1
    refine ⟨hr, ?_⟩
    have hplace : a.offs + j - s.offs = j := by
      by_contra hne
      apply byte_separates (hw hc) hj hne
      have hv := h (fun _ => 0) (only past.length (1#64 <<< (8 * j)))
      simp only [spillAt, stackAt, hs, hc, hre, Bool.and_true, if_true, only_self] at hv
      exact (Option.some.inj hv).symm
    simp only [Access.covers, Bool.and_eq_true, decide_eq_true_eq] at hc
    omega
  · rintro ⟨hr, ho⟩ init values
    rw [covers_iff_reaches hr ho, Bool.or_self] at ht
    have hc : s.covers (a.offs + j) = true := by rw [covers_iff_reaches hr ho, ht]
    simp [spillAt, stackAt, hs, hc, ht, ho]

/-- A redirected load of a byte. -/
theorem spill_iff (past : List (Access frame)) {a : Access frame} {j : Nat} (hj : j < 8) :
    (∀ init values,
        spillAt values past (a.offs / 4) j = some (stackAt init values past (a.offs + j)))
      ↔ ∃ s, past.find? (fun s => s.op.isStore &&
          (s.covers (a.offs + j) || s.reaches (a.offs / 4) j)) = some s
        ∧ s.redirected ∧ s.offs = a.offs := by
  induction past with
  | nil => simp [spillAt]
  | cons s past ih =>
    by_cases ht : (s.op.isStore && (s.covers (a.offs + j) || s.reaches (a.offs / 4) j)) = true
    · have ht' := Bool.and_eq_true_iff.mp ht
      rw [spill_touched past hj ht'.1 ht'.2]
      simp [ht]
    · have hc : (s.op.isStore && s.covers (a.offs + j)) = false := by grind
      have hre : (s.op.isStore && s.reaches (a.offs / 4) j) = false := by grind
      rw [Bool.not_eq_true] at ht
      simp only [List.find?_cons, ht, spillAt, stackAt, hc, hre, Bool.false_eq_true, if_false, ih]

theorem byteAgrees_iff (past : List (Access frame)) (a : Access frame) {j : Nat} (hj : j < 8) :
    ByteAgrees past a j ↔ Unmixed past a j := by
  unfold ByteAgrees Unmixed
  split
  · rw [spill_iff past hj, Option.any_eq_true]
    simp
  · simp only [Option.some.injEq]
    rw [direct_iff past (a.offs + j), Option.all_eq_true]
    simp

/-! ### The runs -/

/-- The memory after accesses, the last one first. -/
def after (opt : Bool) (cfa : Int) (init : Nat → BitVec 8) (values : Nat → BitVec 64) :
    List (Access frame) → Memory
  | [] => .init init
  | s :: past =>
    let m := after opt cfa init values past
    if s.op.isStore then m.store opt cfa s (values past.length) else m

section Runs
variable (init : Nat → BitVec 8) (values : Nat → BitVec 64)

theorem after_off (cfa : Int) (past : List (Access frame)) (b : Nat) :
    (after false cfa init values past).stack b = stackAt init values past b := by
  induction past with
  | nil => rfl
  | cons s past ih =>
    cases hs : s.op.isStore
    · simpa [after, stackAt, hs] using ih
    · simp only [after, stackAt, hs, if_true, Memory.store, s.spill_off, Bool.true_and, ih]

theorem after_on_stack (h16 : frame % 16 = 0) (past : List (Access frame)) (b : Nat) :
    (after true (-frame) init values past).stack b = directAt init values past b := by
  induction past with
  | nil => rfl
  | cons s past ih =>
    cases hs : s.op.isStore
    · simpa [after, directAt, hs] using ih
    · cases hr : s.redirected <;>
        simp [after, directAt, hs, hr, Memory.store, s.spill_on h16, ih]

theorem after_on_spills (h16 : frame % 16 = 0) (past : List (Access frame)) (word j : Nat) :
    (after true (-frame) init values past).spills ((frame : Int) - (4 * word : Nat)) j
      = spillAt values past word j := by
  induction past with
  | nil => rfl
  | cons s past ih =>
    cases hs : s.op.isStore
    · simpa [after, spillAt, hs] using ih
    · cases hr : s.redirected
      · simpa [after, spillAt, hs, hr, Access.reaches, Memory.store, s.spill_on h16] using ih
      · have hword : (frame : Int) - (4 * word : Nat) = frame - (4 * (s.offs / 4) : Nat)
            ↔ s.offs / 4 = word := by omega
        simp only [after, hs, if_true, Memory.store, s.spill_on h16, hr, hword, ih, spillAt,
          Access.reaches, Bool.true_and, Bool.and_eq_true, decide_eq_true_eq]

theorem loadByte_off (cfa : Int) (past : List (Access frame)) (a : Access frame) (j : Nat) :
    (after false cfa init values past).loadByte false cfa a j
      = some (stackAt init values past (a.offs + j)) := by
  simp only [Memory.loadByte, a.spill_off, after_off]

theorem loadByte_on (h16 : frame % 16 = 0) (past : List (Access frame)) (a : Access frame)
    (j : Nat) :
    (after true (-frame) init values past).loadByte true (-frame) a j
      = if a.redirected then spillAt values past (a.offs / 4) j
        else some (directAt init values past (a.offs + j)) := by
  unfold Memory.loadByte
  rw [a.spill_on h16]
  cases a.redirected
  · simp only [Bool.false_eq_true, if_false, after_on_stack init values h16]
  · simp only [if_true, after_on_spills init values h16]

/-- Two loads return the same where every byte of them agrees. -/
theorem load_eq_iff (opt opt' : Bool) (cfa : Int) (m m' : Memory) (a : Access frame) :
    m.load opt cfa a = m'.load opt' cfa a
      ↔ ∀ j < a.op.width, m.loadByte opt cfa a j = m'.loadByte opt' cfa a j := by
  unfold Memory.load
  simp [List.map_inj_left]

end Runs

/-- A fact about every byte of every load, and the accesses before it, the last one first. -/
def Loaded (P : List (Access frame) → Access frame → Nat → Prop) :
    List (Access frame) → List (Access frame) → Prop
  | _, [] => True
  | past, a :: as =>
    (a.op.isStore = false → ∀ j < a.op.width, P past a j) ∧ Loaded P (a :: past) as

theorem loaded_congr {P Q : List (Access frame) → Access frame → Nat → Prop}
    (h : ∀ past a j, j < 8 → (P past a j ↔ Q past a j)) (past as : List (Access frame)) :
    Loaded P past as ↔ Loaded Q past as := by
  induction as generalizing past with
  | nil => exact Iff.rfl
  | cons a as ih =>
    have ha : (∀ j < a.op.width, P past a j) ↔ ∀ j < a.op.width, Q past a j :=
      forall₂_congr fun j hj => h past a j (Nat.lt_of_lt_of_le hj a.op.width_le)
    simp only [Loaded, ha, ih]

theorem loaded_forall {ι : Type} {P : ι → List (Access frame) → Access frame → Nat → Prop}
    (past as : List (Access frame)) :
    (∀ i, Loaded (P i) past as) ↔ Loaded (fun past a j => ∀ i, P i past a j) past as := by
  induction as generalizing past with
  | nil => simp [Loaded]
  | cons a as ih =>
    simp only [Loaded, forall_and, ih]
    constructor
    · exact fun ⟨h, ht⟩ => ⟨fun hl j hj i => h i hl j hj, ht⟩
    · exact fun ⟨h, ht⟩ => ⟨fun i hl j hj => h hl j hj i, ht⟩

/-- The bytes of the loads that the two runs agree on. -/
theorem loads_eq_iff (init : Nat → BitVec 8) (values : Nat → BitVec 64) (opt opt' : Bool)
    (cfa : Int) (past as : List (Access frame)) :
    loads opt cfa values (after opt cfa init values past) past.length as
        = loads opt' cfa values (after opt' cfa init values past) past.length as
      ↔ Loaded (fun past a j => (after opt cfa init values past).loadByte opt cfa a j
          = (after opt' cfa init values past).loadByte opt' cfa a j) past as := by
  induction as generalizing past with
  | nil => simp [loads, Loaded]
  | cons a as ih =>
    have hih := ih (a :: past)
    rw [List.length_cons] at hih
    cases hs : a.op.isStore
    · simp only [after, hs, Bool.false_eq_true, if_false] at hih
      simp only [loads, Loaded, hs, Bool.false_eq_true, if_false, List.cons.injEq, load_eq_iff, hih,
        true_implies]
    · simp only [after, hs, if_true] at hih
      simp only [loads, Loaded, hs, if_true, hih, Bool.true_eq_false, false_implies, true_and]

/-- No load mixes the two ways. -/
def AllUnmixed (accesses : List (Access frame)) : Prop := Loaded Unmixed [] accesses

instance Loaded.decidable {P : List (Access frame) → Access frame → Nat → Prop}
    [∀ past a j, Decidable (P past a j)] : ∀ past as, Decidable (Loaded P past as)
  | _, [] => inferInstanceAs (Decidable True)
  | past, a :: as =>
    have := Loaded.decidable (P := P) (a :: past) as
    inferInstanceAs (Decidable (_ ∧ _))

instance (accesses : List (Access frame)) : Decidable (AllUnmixed accesses) :=
  inferInstanceAs (Decidable (Loaded Unmixed [] accesses))

/-- The loads return the same with the option and without, whatever the frame held and
whatever is stored, just if no byte is stored by one way and loaded by the other. -/
theorem loads_agree_iff (hpos : 0 < frame) (h16 : frame % 16 = 0)
    (accesses : List (Access frame)) :
    ∃ cfa, setCFAOffs (optStack .ABI true) none (-frame) = .ok (some cfa)
      ∧ ((∀ init values,
          loads (optStack .ABI true) cfa values (.init init) 0 accesses
            = loads (optStack .ABI false) cfa values (.init init) 0 accesses)
        ↔ AllUnmixed accesses) := by
  refine ⟨-frame, setCFAOffs_prologue hpos h16, ?_⟩
  have hrun : ∀ i : (Nat → BitVec 8) × (Nat → BitVec 64),
      loads true (-frame) i.2 (.init i.1) 0 accesses
          = loads false (-frame) i.2 (.init i.1) 0 accesses
        ↔ Loaded (fun past a j =>
            (if a.redirected then spillAt i.2 past (a.offs / 4) j
              else some (directAt i.1 i.2 past (a.offs + j)))
            = some (stackAt i.1 i.2 past (a.offs + j))) [] accesses := by
    intro i
    have h := loads_eq_iff i.1 i.2 true false (-frame) [] accesses
    simp only [loadByte_on i.1 i.2 h16, loadByte_off] at h
    exact h
  calc _ ↔ ∀ i : (Nat → BitVec 8) × (Nat → BitVec 64),
        loads true (-frame) i.2 (.init i.1) 0 accesses
          = loads false (-frame) i.2 (.init i.1) 0 accesses := by
        rw [Prod.forall]
        rfl
    _ ↔ Loaded (fun past a j => ByteAgrees past a j) [] accesses := by
        simp only [hrun, loaded_forall, ByteAgrees, Prod.forall]
    _ ↔ AllUnmixed accesses :=
      loaded_congr (fun past a j hj => byteAgrees_iff past a hj) [] accesses

/-- A double is saved and restored, and a word beside it. -/
def savedDouble : List (Access 16) :=
  [⟨.fsd, .sp, 8, by decide⟩, ⟨.sw, .sp, 0, by decide⟩, ⟨.lw, .pointer, 0, by decide⟩,
    ⟨.fld, .sp, 8, by decide⟩]

theorem savedDouble_agrees :
    0 < 16 ∧ 16 % 16 = 0 ∧ AllUnmixed savedDouble
      ∧ ∃ cfa, setCFAOffs (optStack .ABI true) none (-(16 : Nat)) = .ok (some cfa)
        ∧ ∀ init values,
          loads (optStack .ABI true) cfa values (.init init) 0 savedDouble
            = loads (optStack .ABI false) cfa values (.init init) 0 savedDouble := by
  have hu : AllUnmixed savedDouble := by decide
  obtain ⟨cfa, hcfa, hiff⟩ := loads_agree_iff (by decide) (by decide) savedDouble
  exact ⟨by decide, by decide, hu, cfa, hcfa, hiff.mpr hu⟩

/-- A double is moved to integer registers. -/
def movedDouble : List (Access 16) :=
  [⟨.fsd, .sp, 8, by decide⟩, ⟨.lw, .sp, 8, by decide⟩, ⟨.lw, .sp, 12, by decide⟩]

/-- The words that are loaded are those of the guest stack, and the double is in the variable. -/
theorem movedDouble_lost :
    setCFAOffs (optStack .ABI true) none (-(16 : Nat)) = .ok (some (-16))
      ∧ ∃ init values,
        loads (optStack .ABI true) (-16) values (.init init) 0 movedDouble
          ≠ loads (optStack .ABI false) (-16) values (.init init) 0 movedDouble :=
  ⟨by decide, fun _ => 0, fun _ => 0x400921fb54442d18, by decide +kernel⟩

end RiscvSbt.Stack
