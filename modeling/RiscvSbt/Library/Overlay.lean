import Mathlib.Data.List.Basic
import Mathlib.Order.Basic

/-! An array of words that a cursor puts values into.

The values have byte offsets and lie in the order of these. A cursor goes over the words and
takes a value when it is exactly at its offset: otherwise the word stays. So a value the
cursor does not meet keeps all later ones from their places. -/
namespace RiscvSbt.Library.Overlay

variable {α β : Type*}

/-- Those of some things with offsets that the cursor meets on its way over a number of words. -/
def met (offs : β → Nat) : Nat → Nat → List β → List β
  | _, 0, _ => []
  | _, _ + 1, [] => []
  | addr, n + 1, x :: xs =>
    if offs x = addr then x :: met offs (addr + 4) n xs else met offs (addr + 4) n (x :: xs)

/-- The bytes of a word, the lowest one first. -/
def byte (w : BitVec 32) (k : Nat) : BitVec 8 := (w >>> (8 * k)).setWidth 8

def byteAt (ws : List (BitVec 32)) (i : Nat) : Option (BitVec 8) :=
  ws[i / 4]?.map fun w => byte w (i % 4)

/-- The offsets are those of different words, in their order. -/
structure Fits (offs : β → Nat) (xs : List β) : Prop where
  aligned : ∀ x ∈ xs, offs x % 4 = 0
  increasing : xs.Pairwise fun x y => offs x < offs y

variable {offs : β → Nat} {x : β} {xs ys : List β} {addr n : Nat} {ws : List α}
  {ps : List (Nat × α)} {p : Nat × α}

theorem Fits.tail (h : Fits offs (x :: xs)) : Fits offs xs :=
  ⟨fun y hy => h.aligned y (.tail x hy), (List.pairwise_cons.mp h.increasing).2⟩

theorem Fits.behind (h : Fits offs (x :: xs)) : ∀ y ∈ xs, offs x + 4 ≤ offs y := fun y hy => by
  have hx := h.aligned x List.mem_cons_self
  have hy' := h.aligned y (.tail x hy)
  have hlt := (List.pairwise_cons.mp h.increasing).1 y hy
  omega

theorem Fits.cons (h : Fits offs xs) (hx : offs x % 4 = 0) (hlater : ∀ y ∈ xs, offs x < offs y) :
    Fits offs (x :: xs) := by
  refine ⟨fun y hy => ?_, List.pairwise_cons.mpr ⟨hlater, h.increasing⟩⟩
  cases hy with
  | head => exact hx
  | tail _ hy => exact h.aligned y hy

/-! ### What the cursor meets -/

theorem getElem?_behind (v : α) (image : List α) {a : Nat} (h : addr + 4 ≤ a) :
    (v :: image)[(a - addr) / 4]? = image[(a - (addr + 4)) / 4]? := by
  have hidx : (a - addr) / 4 = (a - (addr + 4)) / 4 + 1 := by omega
  rw [hidx, List.getElem?_cons_succ]

/-- Each word at the offset of a value is that value, and the others stay. -/
def Placed (addr : Nat) (ws : List α) (ps : List (Nat × α)) (image : List α) : Prop :=
  (∀ p ∈ ps, image[(p.1 - addr) / 4]? = some p.2) ∧
    ∀ j, (∀ p ∈ ps, p.1 ≠ addr + 4 * j) → image[j]? = ws[j]?

/-- The cursor has put a value in its place. -/
theorem Placed.hit {image : List α} (h : Placed (addr + 4) ws ps image) (w : α) (heq : p.1 = addr)
    (hlater : ∀ q ∈ ps, addr + 4 ≤ q.1) : Placed addr (w :: ws) (p :: ps) (p.2 :: image) := by
  refine ⟨fun q hq => ?_, fun j hj => ?_⟩
  · cases hq with
    | head => simp [heq]
    | tail _ hq =>
      rw [getElem?_behind p.2 image (hlater q hq)]
      exact h.1 q hq
  · cases j with
    | zero => exact absurd heq (hj p List.mem_cons_self)
    | succ j =>
      rw [List.getElem?_cons_succ, List.getElem?_cons_succ]
      exact h.2 j fun q hq => by
        have := hj q (.tail p hq)
        omega

end RiscvSbt.Library.Overlay
