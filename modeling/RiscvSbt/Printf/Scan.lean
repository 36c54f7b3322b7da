import RiscvSbt.Printf.Break
import Mathlib.Algebra.GroupWithZero.Nat

/-! The scan of the format string, for every call that C allows.

The scanner counts percent signs, the loops over the arguments count arguments. With a `'*'`,
that takes an argument without a percent sign, or with surplus arguments the two differ. A
group of arguments whose number is that of the percent signs left is not cut off, and neither
are the groups behind it: then the calls lack them (`Lost`), but where the whole rest goes to
the last call (`Scan` with `left < size`). -/
namespace RiscvSbt.Printf

/-! ### Calls that C allows -/

/-- A conversion specification behind its percent sign. Each `'*'`, for its width or its
precision, takes an argument in front of the one that is converted. -/
structure StarSpec where
  mods : List Char
  conv : Char
  mods_ok : ∀ c ∈ mods, c = '*' ∨ c ∈ modifiers
  conv_ok : conv ∈ conversions

namespace StarSpec

def render (s : StarSpec) : List Char := s.mods ++ [s.conv]

def stars (s : StarSpec) : Nat := s.mods.count '*'

/-- The specification without its stars. -/
def plain (s : StarSpec) : Spec where
  mods := s.mods.filter (· ≠ '*')
  conv := s.conv
  mods_ok c hc := by
    obtain ⟨hmem, hne⟩ := List.mem_filter.mp hc
    exact (s.mods_ok c hmem).resolve_left (of_decide_eq_true hne)
  conv_ok := s.conv_ok

theorem no_percent (s : StarSpec) : ∀ c ∈ s.render, c ≠ '%' := by
  rintro c hc rfl
  rcases List.mem_append.mp hc with hm | hm
  · rcases s.mods_ok _ hm with h | h
    · exact absurd h (by decide)
    · exact absurd h (by decide)
  · rw [List.mem_singleton] at hm
    exact absurd (hm ▸ s.conv_ok) (by decide)

theorem render_eq (s : StarSpec) : ∃ c w, s.render = c :: w ∧ ∀ x ∈ c :: w, x ≠ '%' := by
  obtain ⟨c, w, hw⟩ := List.exists_cons_of_ne_nil (show s.render ≠ [] by simp [render])
  exact ⟨c, w, hw, hw ▸ s.no_percent⟩

end StarSpec

inductive Item where
  | text (c : Char) (h : c ≠ '%')
  /-- An escaped percent sign. -/
  | percent
  | conv (s : StarSpec)

namespace Item

def render : Item → List Char
  | .text c _ => [c]
  | .percent => ['%', '%']
  | .conv s => '%' :: s.render

/-- The number of conversions. -/
def specs : Item → Nat
  | .conv _ => 1
  | _ => 0

end Item

/-- The format string of some items. -/
def formatOf (F : List Item) : List Char := F.flatMap Item.render

/-- The number of conversion specifications. -/
def specs (F : List Item) : Nat := (F.map Item.specs).sum

/-- An integer of at most 32 bits, or a pointer. -/
def Arg.isWord : Arg → Bool
  | .int bits _ => bits ≤ 32
  | .ptr _ => true
  | _ => false

/-- Each conversion has its arguments, of their types; what is left over is ignored. -/
inductive Legal : List Item → List Arg → Prop
  | surplus {args : List Arg} (types : ∀ x ∈ args, x.isWord = true ∨ x.isDouble = true) :
      Legal [] args
  | text {c : Char} {h : c ≠ '%'} {F : List Item} {args : List Arg} (rest : Legal F args) :
      Legal (.text c h :: F) args
  | percent {F : List Item} {args : List Arg} (rest : Legal F args) : Legal (.percent :: F) args
  | conv {s : StarSpec} {stars : List Arg} {arg : Arg} {F : List Item} {args : List Arg}
      (count : stars.length = s.stars) (ints : ∀ x ∈ stars, ∃ v, x = .int 32 v)
      (takes : s.plain.takes arg = true) (rest : Legal F args) :
      Legal (.conv s :: F) (stars ++ arg :: args)

/-- The number of arguments behind the last double. -/
def behind : List Arg → Nat
  | [] => 0
  | arg :: args => if args.any Arg.isDouble || arg.isDouble then behind args else args.length + 1

/-- The last groups are of four integers or pointers each, and so is the last part of the format
that is not cut, for fewer of them. -/
def Regular (q : Nat) (args : List Arg) : Prop :=
  ∃ m, 0 < m ∧ q + behind args = args.length + 4 * m ∧ 4 ∣ behind args ∧ q < args.length

section
variable {F G : List Item} {a b args rest : List Arg} {n k : Nat}

@[simp] theorem formatOf_nil : formatOf [] = [] := rfl

@[simp] theorem formatOf_cons (i : Item) (F : List Item) :
    formatOf (i :: F) = i.render ++ formatOf F := rfl

@[simp] theorem formatOf_append (F G : List Item) :
    formatOf (F ++ G) = formatOf F ++ formatOf G := List.flatMap_append

@[simp] theorem specs_nil : specs [] = 0 := rfl

@[simp] theorem specs_cons (i : Item) (F : List Item) : specs (i :: F) = i.specs + specs F :=
  List.sum_cons

theorem Arg.isDouble_of_isWord {x : Arg} (h : x.isWord = true) : x.isDouble = false := by
  cases x <;> first | rfl | cases h

theorem word_of_takes {s : Spec} {arg : Arg} (h : s.takes arg = true) :
    arg.isWord = true ∨ arg.isDouble = true := by
  cases arg with
  | int bits v =>
    simp only [Spec.takes, Bool.and_eq_true] at h
    exact .inl h.1.1
  | ptr v => exact .inl rfl
  | float v => cases h
  | double v => exact .inr rfl

theorem Legal.types (h : Legal F args) : ∀ x ∈ args, x.isWord = true ∨ x.isDouble = true := by
  induction h with
  | surplus types => exact types
  | text _ ih => exact ih
  | percent _ ih => exact ih
  | conv _ ints takes _ ih =>
    intro x hx
    rcases List.mem_append.mp hx with hx | hx
    · obtain ⟨v, rfl⟩ := ints x hx
      exact .inl rfl
    · rcases List.mem_cons.mp hx with rfl | hx
      · exact word_of_takes takes
      · exact ih x hx

/-- A conversion without stars. -/
theorem Legal.bare {s : StarSpec} {arg : Arg} (count : s.stars = 0)
    (takes : s.plain.takes arg = true) (rest : Legal F args) :
    Legal (.conv s :: F) (arg :: args) := by
  have h : Legal (.conv s :: F) ([] ++ arg :: args) := .conv count.symm nofun takes rest
  exact h

theorem Legal.specs_le (h : Legal F args) : specs F ≤ args.length := by
  induction h with
  | surplus => exact Nat.zero_le _
  | text _ ih => simpa [Item.specs] using ih
  | percent _ ih => simpa [Item.specs] using ih
  | conv _ _ _ _ ih =>
    rw [specs_cons, List.length_append, List.length_cons, Item.specs]
    omega

/-! ### Arguments behind the last double -/

theorem any_double_of_words (h : ∀ x ∈ a, x.isWord = true) : a.any Arg.isDouble = false :=
  List.any_eq_false.mpr fun x hx => by simp [Arg.isDouble_of_isWord (h x hx)]

theorem behind_words (h : ∀ x ∈ a, x.isWord = true) : behind a = a.length := by
  cases a with
  | nil => rfl
  | cons x a =>
    have ha := any_double_of_words fun y hy => h y (List.mem_cons_of_mem x hy)
    rw [behind, ha, Arg.isDouble_of_isWord (h x List.mem_cons_self)]
    rfl

theorem behind_append (h : b.any Arg.isDouble = true) : behind (a ++ b) = behind b := by
  induction a with
  | nil => rfl
  | cons x a ih =>
    rw [List.cons_append, behind, List.any_append, h, Bool.or_true, Bool.true_or, if_pos rfl, ih]

theorem behind_double (a rest : List Arg) (v : BitVec 64) :
    behind (a ++ .double v :: rest) = behind rest := by
  rw [behind_append (by simp [Arg.isDouble]), behind]
  simp [Arg.isDouble]

theorem behind_le (args : List Arg) : behind args ≤ args.length := by
  induction args with
  | nil => exact Nat.le_refl 0
  | cons x args ih =>
    rw [behind, List.length_cons]
    split <;> omega

theorem words_of_behind (h : ∀ x ∈ args, x.isWord = true ∨ x.isDouble = true)
    (hb : behind args = args.length) : ∀ x ∈ args, x.isWord = true := by
  induction args with
  | nil => exact nofun
  | cons x args ih =>
    have hle := behind_le args
    rw [behind, List.length_cons] at hb
    split at hb
    next => omega
    next hnone =>
      rw [Bool.or_eq_true, not_or] at hnone
      intro y hy
      refine (h y hy).resolve_right fun hd => ?_
      rcases List.mem_cons.mp hy with rfl | hy
      · exact hnone.2 hd
      · exact hnone.1 (List.any_eq_true.mpr ⟨y, hy, hd⟩)

/-- Arguments in front of a double do not matter. -/
theorem regular_append (q : Nat) (hb : behind (a ++ b) = behind b) :
    Regular (a.length + q) (a ++ b) ↔ Regular q b := by
  unfold Regular
  rw [hb, List.length_append]
  constructor <;> rintro ⟨m, hm, heq, hdvd, hlt⟩ <;> exact ⟨m, hm, by omega, hdvd, by omega⟩

theorem Regular.four_le {q : Nat} (h : Regular q args) : 4 ≤ q := by
  obtain ⟨m, hm, heq, -, -⟩ := h
  have := behind_le args
  omega

/-- Four integers or pointers in front, that are cut off. -/
theorem regular_four {q : Nat} (h : ∀ x ∈ a ++ b, x.isWord = true ∨ x.isDouble = true)
    (ha : ∀ x ∈ a, x.isWord = true) (hlen : a.length = 4) (hq : 0 < q) :
    Regular (4 + q) (a ++ b) ↔ Regular q b := by
  by_cases hd : b.any Arg.isDouble = true
  · rw [← hlen]
    exact regular_append q (behind_append hd)
  · have hb (x : Arg) (hx : x ∈ b) : x.isWord = true :=
      (h x (List.mem_append_right a hx)).resolve_right fun hdx =>
        hd (List.any_eq_true.mpr ⟨x, hx, hdx⟩)
    have hab (x : Arg) (hx : x ∈ a ++ b) : x.isWord = true :=
      (List.mem_append.mp hx).elim (ha x) (hb x)
    unfold Regular
    rw [behind_words hb, behind_words hab, List.length_append, hlen]
    constructor
    · rintro ⟨m, hm, heq, hdvd, hlt⟩
      exact ⟨m - 1, by omega, by omega, by omega, by omega⟩
    · rintro ⟨m, hm, heq, hdvd, hlt⟩
      exact ⟨m + 1, by omega, by omega, by omega, by omega⟩

/-! ### The scanner -/

/-- There are not too many percent signs: the scanner reaches the end. -/
theorem advance_all (h : k + specs F ≤ n) :
    advance n k (formatOf F) = .ok (k + specs F, (formatOf F).length) := by
  induction F generalizing k with
  | nil => rfl
  | cons i F ih =>
    rw [specs_cons] at h
    cases i with
    | text c hc =>
      have hnext := ih (k := k) (by simpa [Item.specs] using h)
      simpa [Item.specs, Item.render] using advance_char hc hnext
    | percent =>
      have hnext := ih (k := k) (by simpa [Item.specs] using h)
      simpa [Item.specs, Item.render] using advance_escape (by omega) hnext
    | conv s =>
      rw [Item.specs] at h
      have hnext := ih (k := k + 1) (by omega)
      obtain ⟨c, w, hw, hplain⟩ := s.render_eq
      have hrest := advance_plain (fun x hx => hplain x (List.mem_cons_of_mem c hx)) hnext
      have hall := advance_percent (hplain c List.mem_cons_self) (by omega) hrest
      rw [formatOf_cons, Item.render, hw, List.cons_append, List.cons_append, hall]
      simp only [specs_cons, Item.specs, List.length_cons, List.length_append]
      congr 2 <;> omega

/-- There is one too many: the format is cut in front of it. -/
theorem advance_cut (h : k ≤ n) (hn : n < k + specs F) :
    ∃ F₁ F₂, F = F₁ ++ F₂ ∧ k + specs F = n + specs F₂ ∧
      advance n k (formatOf F) = .ok (n + 1, (formatOf F₁).length) := by
  induction F generalizing k with
  | nil => exact absurd hn (by simpa using Nat.not_lt.mpr h)
  | cons i F ih =>
    rw [specs_cons] at hn ⊢
    cases i with
    | text c hc =>
      obtain ⟨F₁, F₂, rfl, hs, hadv⟩ := ih h (by simpa [Item.specs] using hn)
      refine ⟨.text c hc :: F₁, F₂, rfl, by simpa [Item.specs] using hs, ?_⟩
      simpa [Item.render] using advance_char hc hadv
    | percent =>
      obtain ⟨F₁, F₂, rfl, hs, hadv⟩ := ih h (by simpa [Item.specs] using hn)
      refine ⟨.percent :: F₁, F₂, rfl, by simpa [Item.specs] using hs, ?_⟩
      simpa [Item.render] using advance_escape (by omega) hadv
    | conv s =>
      rw [Item.specs] at hn ⊢
      obtain ⟨c, w, hw, hplain⟩ := s.render_eq
      by_cases hstop : k = n
      · subst hstop
        refine ⟨[], .conv s :: F, rfl, by rw [specs_cons, Item.specs], ?_⟩
        rw [formatOf_cons, Item.render, hw]
        exact advance_stop (hplain c List.mem_cons_self)
      · obtain ⟨F₁, F₂, rfl, hs, hadv⟩ := ih (k := k + 1) (by omega) (by omega)
        refine ⟨.conv s :: F₁, F₂, rfl, by omega, ?_⟩
        have hrest := advance_plain (fun x hx => hplain x (List.mem_cons_of_mem c hx)) hadv
        have hall := advance_percent (hplain c List.mem_cons_self) hstop hrest
        rw [formatOf_cons, Item.render, hw, List.cons_append, List.cons_append, hall]
        simp only [formatOf_cons, Item.render, hw, List.length_cons, List.length_append]
        congr 2
        omega

/-! ### One split -/

/-- A group is a double, or it is not empty. -/
def Splits (n : Nat) (isDouble : Bool) : Prop := 0 < n ∧ (isDouble = true → n = 1)

variable {st : State} {isDouble : Bool}

theorem Splits.words (h : 0 < n) : Splits n false := ⟨h, nofun⟩

theorem Splits.double : Splits 1 true := ⟨Nat.one_pos, fun _ => rfl⟩

theorem Splits.not_throw (h : Splits n isDouble) : (isDouble && decide (n ≠ 1)) = false := by
  cases isDouble with
  | false => rfl
  | true => simp [h.2 rfl]

/-- Fewer percent signs than arguments: the post-condition does not hold. -/
theorem split_short (hsplit : Splits n isDouble) (hfmt : st.back.fmt = formatOf F)
    (h : specs F < n) : ∃ e, st.split n isDouble = .error e := by
  refine ⟨"count == n + 1 || count == n && pos == s.size()", ?_⟩
  have hadv : advance n 0 (formatOf F) = .ok (specs F, (formatOf F).length) := by
    simpa using advance_all (k := 0) (F := F) (n := n) (by omega)
  have hpost : ¬ (specs F = n + 1 ∨ specs F = n) := by omega
  unfold State.split
  rw [hsplit.not_throw, if_neg Bool.false_ne_true, hfmt]
  simp only [hadv, bind, Except.bind, and_true, if_pos hpost]
  rfl

/-- As many percent signs as arguments: nothing is cut. -/
theorem split_keep (hsplit : Splits (specs F) isDouble) (hfmt : st.back.fmt = formatOf F) :
    st.split (specs F) isDouble = .ok {st with
      i := st.i + specs F
      back := if isDouble then {st.back with args := specs F, isDouble := true} else st.back} := by
  have hadv : advance (specs F) 0 (formatOf F) = .ok (specs F, (formatOf F).length) := by
    simpa using advance_all (k := 0) (F := F) (Nat.le_of_eq (Nat.zero_add _))
  unfold State.split
  rw [hsplit.not_throw, if_neg Bool.false_ne_true, hfmt]
  simp only [hadv, bind, Except.bind, and_true, or_true, not_true, if_false, ne_eq]
  cases isDouble <;> rfl

/-- More percent signs than arguments. -/
theorem split_cut (hsplit : Splits n isDouble) (hfmt : st.back.fmt = formatOf F)
    (h : n < specs F) : ∃ F₁ F₂, specs F = n + specs F₂ ∧
      st.split n isDouble = .ok {st with
        i := st.i + n
        front := st.front ++ [⟨formatOf F₁, n, isDouble⟩]
        back := ⟨formatOf F₂, st.n - (st.i - 1) - n, false⟩} := by
  obtain ⟨F₁, F₂, rfl, hs, hadv⟩ := advance_cut (Nat.zero_le n) (by simpa using h)
  refine ⟨F₁, F₂, by simpa using hs, ?_⟩
  have hne : n + 1 ≠ n := by omega
  unfold State.split
  rw [hsplit.not_throw, if_neg Bool.false_ne_true, hfmt]
  rw [formatOf_append] at hadv ⊢
  simp only [hadv, bind, Except.bind, true_or, not_true, if_false, ne_eq, hne, not_false_eq_true,
    if_true, List.take_left' rfl, List.drop_left' rfl]
  rfl

/-! ### What the calls take -/

def PCall.taken (p : PCall) : Nat := if p.isDouble then 1 else p.args

/-- The number of arguments that calls take. -/
def taken (pcalls : List PCall) : Nat := (pcalls.map PCall.taken).sum

@[simp] theorem taken_append (p q : List PCall) : taken (p ++ q) = taken p + taken q := by
  simp [taken]

@[simp] theorem taken_singleton (p : PCall) : taken [p] = p.taken := by
  simp [taken]

/-- The calls are issued, with no argument left over, if they take as many as there are. -/
theorem issue_ok_iff (pcalls : List PCall) (args : List Arg) :
    (∃ calls, issueNewCalls pcalls args = .ok calls) ↔ taken pcalls = args.length := by
  induction pcalls generalizing args with
  | nil =>
    cases args with
    | nil => exact ⟨fun _ => rfl, fun _ => ⟨[], rfl⟩⟩
    | cons x args =>
      refine iff_of_false (fun h => ?_) fun h => ?_
      · obtain ⟨_, h⟩ := h
        cases h
      · cases h
  | cons p pcalls ih =>
    have htaken : taken (p :: pcalls) = p.taken + taken pcalls := by simp [taken]
    rw [htaken, issueNewCalls]
    show (∃ calls, (if args.length < p.taken then _ else _) = _) ↔ _
    split
    next hlt =>
      refine iff_of_false (fun h => ?_) fun h => by omega
      obtain ⟨_, h⟩ := h
      cases h
    next hle =>
      have ih := ih (args.drop p.taken)
      rw [List.length_drop] at ih
      show (∃ calls, (issueNewCalls pcalls (args.drop p.taken) >>= _) = _) ↔ _
      cases hrest : issueNewCalls pcalls (args.drop p.taken) with
      | error e =>
        rw [hrest] at ih
        have hne : taken pcalls ≠ args.length - p.taken := fun h => by
          obtain ⟨calls, h⟩ := ih.mpr h
          cases h
        refine iff_of_false (fun h => ?_) fun h => absurd (by omega) hne
        obtain ⟨_, h⟩ := h
        cases h
      | ok calls =>
        have heq := ih.mp ⟨calls, hrest⟩
        exact ⟨fun _ => by omega, fun _ => ⟨_, rfl⟩⟩

/-! ### States of the loops -/

/-- The calls so far and the last one, that holds the rest of the format and is to take `size`
arguments, take `total`; `left` arguments have not been looked at. -/
structure Scan (total : Nat) (st : State) (F : List Item) (size left : Nat) : Prop where
  back : st.back = ⟨formatOf F, size, false⟩
  sum : taken st.front + size = total
  rem : st.n - (st.i - 1) = left
  pos : 0 < st.i
  le : left ≤ size

/-- Whatever is cut from now on, the calls take too few arguments. -/
structure Lost (total : Nat) (st : State) (left : Nat) : Prop where
  fmt : ∃ F, st.back.fmt = formatOf F
  rest : taken st.front + left < total
  back : taken st.front + st.back.taken < total
  rem : st.n - (st.i - 1) = left
  pos : 0 < st.i

variable {total size left : Nat}

theorem Splits.taken (h : Splits n isDouble) (fmt : List Char) :
    (⟨fmt, n, isDouble⟩ : PCall).taken = n := by
  cases isDouble with
  | true => exact (h.2 rfl).symm
  | false => rfl

theorem Scan.keep (h : Scan total st F size left) (hpos : 0 < specs F) (hle : specs F ≤ left) :
    ∃ st', st.split (specs F) false = .ok st' ∧ Scan total st' F size (left - specs F) := by
  refine ⟨_, split_keep ⟨hpos, nofun⟩ (by rw [h.back]), h.back, h.sum, ?_, ?_, ?_⟩
  · have := h.rem
    have := h.pos
    show st.n - (st.i + specs F - 1) = left - specs F
    omega
  · exact Nat.lt_of_lt_of_le h.pos (Nat.le_add_right _ _)
  · have := h.le
    omega

/-- A cut before any group was kept. -/
theorem Scan.cut (h : Scan total st F left left) (hsplit : Splits n isDouble) (hn : n < specs F)
    (hle : n ≤ left) : ∃ st' G, st.split n isDouble = .ok st' ∧ specs F = n + specs G ∧
      Scan total st' G (left - n) (left - n) := by
  obtain ⟨F₁, F₂, hs, hst⟩ := split_cut hsplit (by rw [h.back]) hn
  have htaken := hsplit.taken (formatOf F₁)
  have hleft := h.rem
  have hpos := h.pos
  refine ⟨_, F₂, hst, hs, by rw [hleft], ?_, ?_, ?_, Nat.le_refl _⟩
  · have := h.sum
    rw [taken_append, taken_singleton, htaken]
    omega
  · show st.n - (st.i + n - 1) = left - n
    omega
  · show 0 < st.i + n
    omega

/-- A cut behind a group that was kept. -/
theorem Scan.lose (h : Scan total st F size left) (hlt : left < size)
    (hsplit : Splits n isDouble) (hn : n < specs F) (hle : n ≤ left) :
    ∃ st', st.split n isDouble = .ok st' ∧ Lost total st' (left - n) := by
  obtain ⟨F₁, F₂, hs, hst⟩ := split_cut hsplit (by rw [h.back]) hn
  have htaken := hsplit.taken (formatOf F₁)
  have hleft := h.rem
  have hpos := h.pos
  have hsum := h.sum
  refine ⟨_, hst, ⟨F₂, rfl⟩, ?_, ?_, ?_, ?_⟩
  · rw [taken_append, taken_singleton, htaken]
    omega
  · rw [taken_append, taken_singleton, htaken]
    show taken st.front + n + (st.n - (st.i - 1) - n) < total
    omega
  · show st.n - (st.i + n - 1) = left - n
    omega
  · show 0 < st.i + n
    omega

/-- A double that takes the last specification, though it is not the last argument. -/
theorem Scan.lose_double (h : Scan total st F size left) (hs : specs F = 1) (hlt : 1 < size)
    (hle : 1 ≤ left) : ∃ st', st.split 1 true = .ok st' ∧ Lost total st' (left - 1) := by
  have hone : Splits (specs F) true := hs ▸ .double
  have hst := split_keep hone (show st.back.fmt = formatOf F by rw [h.back])
  rw [hs] at hst
  have hleft := h.rem
  have hpos := h.pos
  have hsum := h.sum
  have hsize := h.le
  refine ⟨_, hst, ⟨F, by rw [if_pos rfl, h.back]⟩, ?_, ?_, ?_, ?_⟩
  · show taken st.front + (left - 1) < total
    omega
  · show taken st.front + 1 < total
    omega
  · show st.n - (st.i + 1 - 1) = left - 1
    omega
  · show 0 < st.i + 1
    omega

/-- What is lost stays lost. -/
theorem Lost.split (h : Lost total st left) (hsplit : Splits n isDouble) (hle : n ≤ left) :
    (∃ e, st.split n isDouble = .error e) ∨
      ∃ st', st.split n isDouble = .ok st' ∧ Lost total st' (left - n) := by
  obtain ⟨⟨F, hfmt⟩, hrest, hback, hrem, hpos⟩ := h
  have hrem' : st.n - (st.i + n - 1) = left - n := by omega
  have hpos' : 0 < st.i + n := by omega
  rcases Nat.lt_trichotomy (specs F) n with hs | rfl | hs
  · exact .inl (split_short hsplit hfmt hs)
  · refine .inr ⟨_, split_keep hsplit hfmt, ⟨F, ?_⟩, ?_, ?_, hrem', hpos'⟩
    · cases isDouble <;> exact hfmt
    · show taken st.front + (left - specs F) < total
      omega
    · have hn := hsplit.1
      cases isDouble with
      | true =>
        show taken st.front + 1 < total
        omega
      | false => exact hback
  · obtain ⟨F₁, F₂, -, hst⟩ := split_cut hsplit hfmt hs
    have htaken := hsplit.taken (formatOf F₁)
    refine .inr ⟨_, hst, ⟨F₂, rfl⟩, ?_, ?_, hrem', hpos'⟩
    · rw [taken_append, taken_singleton, htaken]
      omega
    · rw [taken_append, taken_singleton, htaken]
      show taken st.front + n + (st.n - (st.i - 1) - n) < total
      omega

/-! ### The groups -/

variable {j fuel : Nat} {x : Arg} {v : BitVec 64}

/-- The first group of some arguments: the last integers and pointers, four of them, or those in
front of a double. -/
theorem first_group (h : ∀ x ∈ args, x.isWord = true ∨ x.isDouble = true) (n : Nat) :
    (∀ x ∈ args, x.isWord = true) ∧ args.length ≤ n ∨
      (∃ a x rest, args = a ++ x :: rest ∧ (∀ x ∈ a, x.isWord = true) ∧ a.length = n) ∨
      ∃ a v rest, args = a ++ .double v :: rest ∧ (∀ x ∈ a, x.isWord = true) ∧ a.length < n := by
  induction args generalizing n with
  | nil => exact .inl ⟨nofun, Nat.zero_le n⟩
  | cons x args ih =>
    cases n with
    | zero => exact .inr (.inl ⟨[], x, args, rfl, nofun, rfl⟩)
    | succ n =>
      rcases h x List.mem_cons_self with hx | hx
      · have hcons {a : List Arg} (ha : ∀ y ∈ a, y.isWord = true) :
            ∀ y ∈ x :: a, y.isWord = true := fun y hy => (List.mem_cons.mp hy).elim (· ▸ hx) (ha y)
        rcases ih (fun y hy => h y (List.mem_cons_of_mem x hy)) n with ⟨ha, hlen⟩ |
          ⟨a, y, rest, rfl, ha, hlen⟩ | ⟨a, v, rest, rfl, ha, hlen⟩
        · exact .inl ⟨hcons ha, Nat.succ_le_succ hlen⟩
        · exact .inr (.inl ⟨x :: a, y, rest, rfl, hcons ha, congrArg Nat.succ hlen⟩)
        · exact .inr (.inr ⟨x :: a, v, rest, rfl, hcons ha, Nat.succ_lt_succ hlen⟩)
      · cases x with
        | double v => exact .inr (.inr ⟨[], v, args, rfl, nofun, Nat.succ_pos n⟩)
        | _ => cases hx

theorem group_words (ha : ∀ x ∈ a, x.isWord = true) (hlen : j + a.length ≤ 4) :
    st.group j (a ++ rest) = st.group (j + a.length) rest := by
  induction a generalizing j with
  | nil => rfl
  | cons x a ih =>
    rw [List.length_cons] at hlen ⊢
    have hnext : st.group j (x :: (a ++ rest)) = st.group (j + 1) (a ++ rest) := by
      have hfour : j ≠ 4 := by omega
      show (if j = 4 then _ else _) = _
      rw [if_neg hfour]
      cases x with
      | int bits v => exact if_pos (of_decide_eq_true (ha _ List.mem_cons_self))
      | ptr v => rfl
      | float v => cases ha _ List.mem_cons_self
      | double v => cases ha _ List.mem_cons_self
    rw [List.cons_append, hnext, ih (fun y hy => ha y (List.mem_cons_of_mem x hy)) (by omega)]
    congr 1
    omega

@[simp] theorem groups_nil : State.groups fuel st [] = .ok st := by
  cases fuel <;> rfl

theorem groups_cons (hne : args ≠ []) : State.groups (fuel + 1) st args =
    st.group 0 args >>= fun p => State.groups fuel p.1 p.2 := by
  obtain ⟨x, args, rfl⟩ := List.exists_cons_of_ne_nil hne
  rfl

theorem groups_end (hne : a ≠ []) (ha : ∀ x ∈ a, x.isWord = true) (hlen : a.length ≤ 4) :
    State.groups (fuel + 1) st a =
      st.split a.length false >>= fun st => State.groups fuel st [] := by
  have h : st.group 0 (a ++ []) = st.group (0 + a.length) [] := group_words ha (by omega)
  rw [List.append_nil, Nat.zero_add] at h
  rw [groups_cons hne, h]
  show (st.split a.length false >>= fun st => pure (st, [])) >>= _ = _
  simp only [bind_assoc, pure_bind]

theorem groups_four (ha : ∀ x ∈ a, x.isWord = true) (hlen : a.length = 4) :
    State.groups (fuel + 1) st (a ++ x :: rest) =
      st.split 4 false >>= fun st => State.groups fuel st (x :: rest) := by
  rw [groups_cons (by simp), group_words ha (by omega), Nat.zero_add, hlen]
  show (st.split 4 false >>= fun st => pure (st, x :: rest)) >>= _ = _
  simp only [bind_assoc, pure_bind]

theorem groups_double : State.groups (fuel + 1) st (.double v :: rest) =
    st.split 1 true >>= fun st => State.groups fuel st rest := by
  rw [groups_cons (by simp)]
  show (st.split 1 true >>= fun st => pure (st, rest)) >>= _ = _
  simp only [bind_assoc, pure_bind]

/-- The integers in front of a double are flushed. -/
theorem groups_flush (hne : a ≠ []) (ha : ∀ x ∈ a, x.isWord = true) (hlen : a.length < 4) :
    State.groups (fuel + 1) st (a ++ .double v :: rest) =
      st.split a.length false >>= fun st => st.split 1 true >>= fun st =>
        State.groups fuel st rest := by
  have hfour : a.length ≠ 4 := by omega
  have hzero : a.length ≠ 0 := fun h => hne (List.length_eq_zero_iff.mp h)
  have hgroup : st.group a.length (.double v :: rest) =
      st.split a.length false >>= fun st => st.split 1 true >>= fun st => pure (st, rest) := by
    show (if a.length = 4 then _ else if a.length ≠ 0 then _ else _) = _
    rw [if_neg hfour, if_pos hzero]
  rw [groups_cons (by simp), group_words ha (by omega), Nat.zero_add, hgroup]
  simp only [bind_assoc, pure_bind]

/-- The loops end, and the calls take all arguments. -/
def Succeeds (total : Nat) (x : Except String State) : Prop :=
  ∃ st, x = .ok st ∧ taken st.pcalls = total

theorem not_succeeds {e : String} : ¬ Succeeds total (.error e) := fun ⟨_, h, _⟩ => nomatch h

theorem Lost.done (h : Lost total st left) : ¬ Succeeds total (State.groups fuel st []) := by
  rintro ⟨st', hst', htaken⟩
  obtain rfl := Except.ok.inj (groups_nil.symm.trans hst')
  have := h.back
  rw [State.pcalls, taken_append, taken_singleton] at htaken
  omega

theorem Lost.bind {k : State → Except String State} (h : Lost total st left)
    (hsplit : Splits n isDouble) (hle : n ≤ left)
    (hk : ∀ st', Lost total st' (left - n) → ¬ Succeeds total (k st')) :
    ¬ Succeeds total (st.split n isDouble >>= k) := by
  rcases h.split hsplit hle with ⟨e, he⟩ | ⟨st', hst', h'⟩
  · rw [he]
    exact not_succeeds
  · rw [hst']
    exact hk st' h'

/-- Behind a loss the calls take too few arguments. -/
theorem Lost.groups (h : Lost total st args.length)
    (types : ∀ x ∈ args, x.isWord = true ∨ x.isDouble = true) :
    ¬ Succeeds total (State.groups fuel st args) := by
  induction fuel generalizing st args with
  | zero =>
    cases args with
    | nil => exact h.done
    | cons x args => exact not_succeeds
  | succ fuel ih =>
    by_cases hne : args = []
    · subst hne
      exact h.done
    rcases first_group types 4 with ⟨ha, hlen⟩ | ⟨a, y, rest, rfl, ha, hlen⟩ |
      ⟨a, v, rest, rfl, ha, hlen⟩
    · rw [groups_end hne ha hlen]
      exact h.bind (.words (List.length_pos_iff.mpr hne)) (Nat.le_refl _) fun st' h' => h'.done
    · rw [groups_four ha hlen]
      have hsum : (a ++ y :: rest).length - 4 = (y :: rest).length := by
        rw [List.length_append, hlen, Nat.add_sub_cancel_left]
      refine h.bind (.words (by omega)) (by rw [List.length_append]; omega) fun st' h' => ?_
      exact ih (hsum ▸ h') fun x hx => types x (List.mem_append_right a hx)
    · have hrest (x : Arg) (hx : x ∈ rest) := types x (List.mem_append_right a (.tail _ hx))
      have hdouble (st : State) (h : Lost total st (rest.length + 1)) :
          ¬ Succeeds total (st.split 1 true >>= fun st => State.groups fuel st rest) :=
        h.bind .double (by omega) fun st' h' => ih h' hrest
      by_cases ha0 : a = []
      · subst ha0
        rw [List.nil_append, groups_double]
        exact hdouble st h
      · rw [groups_flush ha0 ha hlen]
        have hsum : (a ++ Arg.double v :: rest).length - a.length = rest.length + 1 := by
          rw [List.length_append, Nat.add_sub_cancel_left, List.length_cons]
        refine h.bind (.words (List.length_pos_iff.mpr ha0)) (by rw [List.length_append]; omega)
          fun st' h' => hdouble st' (hsum ▸ h')

theorem Scan.done (h : Scan total st F size left) :
    Succeeds total (State.groups fuel st []) := by
  refine ⟨st, groups_nil, ?_⟩
  rw [State.pcalls, taken_append, taken_singleton, h.back]
  exact h.sum

/-- Four specifications are left, and a group was kept: all that follow have to be. -/
theorem Scan.groups_kept (h : Scan total st F size args.length) (hlt : args.length < size)
    (hs : specs F = 4) (types : ∀ x ∈ args, x.isWord = true ∨ x.isDouble = true)
    (hfuel : args.length ≤ fuel) :
    Succeeds total (State.groups fuel st args) ↔
      4 ∣ args.length ∧ ∀ x ∈ args, x.isWord = true := by
  induction fuel generalizing st args with
  | zero =>
    obtain rfl := List.length_eq_zero_iff.mp (Nat.le_zero.mp hfuel)
    exact iff_of_true h.done ⟨⟨0, rfl⟩, nofun⟩
  | succ fuel ih =>
    by_cases hne : args = []
    · subst hne
      exact iff_of_true h.done ⟨⟨0, rfl⟩, nofun⟩
    have hpos := List.length_pos_iff.mpr hne
    rcases first_group types 4 with ⟨ha, hlen⟩ | ⟨a, y, rest, rfl, ha, hlen⟩ |
      ⟨a, v, rest, rfl, ha, hlen⟩
    · rw [groups_end hne ha hlen]
      by_cases hfour : args.length = 4
      · obtain ⟨st', hst', h'⟩ := h.keep (by omega) (by omega)
        rw [hs] at hst'
        rw [hfour, hst']
        exact iff_of_true h'.done ⟨⟨1, rfl⟩, ha⟩
      · obtain ⟨st', hst', h'⟩ := h.lose hlt (.words hpos) (by omega) (Nat.le_refl _)
        rw [hst']
        exact iff_of_false h'.done fun hdvd => by have := hdvd.1; omega
    · rw [List.length_append, hlen] at h hlt hfuel
      obtain ⟨st', hst', h'⟩ := h.keep (by omega) (by omega)
      rw [hs] at hst'
      rw [hs, Nat.add_sub_cancel_left] at h'
      rw [groups_four ha hlen, hst']
      have hrest := ih h' (by omega) (fun x hx => types x (List.mem_append_right a hx)) (by omega)
      refine hrest.trans ?_
      rw [List.length_append, hlen]
      constructor
      · rintro ⟨hdvd, hw⟩
        exact ⟨by omega, fun x hx => (List.mem_append.mp hx).elim (ha x) (hw x)⟩
      · rintro ⟨hdvd, hw⟩
        exact ⟨by omega, fun x hx => hw x (List.mem_append_right a hx)⟩
    · refine iff_of_false ?_ fun hw => ?_
      · have hrest (x : Arg) (hx : x ∈ rest) := types x (List.mem_append_right a (.tail _ hx))
        by_cases ha0 : a = []
        · subst ha0
          obtain ⟨st', hst', h'⟩ := h.lose hlt .double (by omega) hpos
          rw [List.nil_append, groups_double, hst']
          exact h'.groups hrest
        · rw [List.length_append, List.length_cons] at h hlt hpos
          obtain ⟨st', hst', h'⟩ := h.lose hlt (.words (List.length_pos_iff.mpr ha0)) (by omega)
            (by omega)
          rw [Nat.add_sub_cancel_left] at h'
          rw [groups_flush ha0 ha hlen, hst']
          exact h'.bind .double (by omega) fun st'' h'' => h''.groups hrest
      · cases hw.2 (.double v) (by simp)

theorem Scan.short (h : Scan total st F size left) (hsplit : Splits n isDouble) (hs : specs F < n)
    {k : State → Except String State} : ¬ Succeeds total (st.split n isDouble >>= k) := by
  obtain ⟨e, he⟩ := split_short hsplit (show st.back.fmt = formatOf F by rw [h.back]) hs
  rw [he]
  exact not_succeeds

/-- What the loops decide, before a group was kept. -/
def Decides (total fuel : Nat) : Prop :=
  ∀ {st : State} {F : List Item} {args : List Arg}, Scan total st F args.length args.length →
    specs F ≤ args.length → (∀ x ∈ args, x.isWord = true ∨ x.isDouble = true) →
    args.length ≤ fuel → args ≠ [] →
      (Succeeds total (State.groups fuel st args) ↔ specs F = args.length ∨ Regular (specs F) args)

/-- Groups of four that are left over need four specifications in front. -/
theorem not_regular {q n : Nat} (hq : q < 4) (hn : q ≠ n) : ¬ (q = n ∨ Regular q args) :=
  fun hor => hor.elim hn fun hr => Nat.not_le.mpr hq hr.four_le

/-- A double, and what follows it. -/
theorem Decides.double (ih : Decides total fuel) {rest : List Arg}
    (h : Scan total st F (rest.length + 1) (rest.length + 1)) (hle : specs F ≤ rest.length + 1)
    (types : ∀ x ∈ rest, x.isWord = true ∨ x.isDouble = true) (hfuel : rest.length ≤ fuel) :
    Succeeds total (st.split 1 true >>= fun st => State.groups fuel st rest) ↔
      specs F = rest.length + 1 ∨ Regular (specs F) (.double v :: rest) := by
  rcases Nat.lt_trichotomy (specs F) 1 with hs | hs | hs
  · exact iff_of_false (h.short .double hs) (not_regular (by omega) (by omega))
  · by_cases hrest : rest = []
    · subst hrest
      have hone : Splits (specs F) true := hs ▸ .double
      have hst := split_keep hone (show st.back.fmt = formatOf F by rw [h.back])
      rw [hs] at hst
      rw [hst]
      refine iff_of_true ⟨_, groups_nil, ?_⟩ (.inl hs)
      rw [State.pcalls, taken_append, taken_singleton]
      exact h.sum
    · have hlen := List.length_pos_iff.mpr hrest
      obtain ⟨st', hst', h'⟩ := h.lose_double hs (by omega) (by omega)
      rw [hst']
      exact iff_of_false (h'.groups types) (not_regular (by omega) (by omega))
  · obtain ⟨st', G, hst', hG, h'⟩ := h.cut .double hs (by omega)
    have hrest : rest ≠ [] := by
      rintro rfl
      exact absurd hle (Nat.not_le.mpr hs)
    have hreg := regular_append (a := [.double v]) (b := rest) (specs G) (behind_double [] rest v)
    rw [hst', hG]
    refine (ih h' (by omega) types hfuel hrest).trans (or_congr ?_ hreg.symm)
    omega

/-- Four integers and pointers, and what follows them. -/
theorem Decides.four (ih : Decides total fuel) {y : Arg} {rest : List Arg}
    (ha : ∀ x ∈ a, x.isWord = true) (hlen : a.length = 4)
    (h : Scan total st F (a ++ y :: rest).length (a ++ y :: rest).length)
    (hle : specs F ≤ (a ++ y :: rest).length)
    (types : ∀ x ∈ a ++ y :: rest, x.isWord = true ∨ x.isDouble = true)
    (hfuel : (a ++ y :: rest).length ≤ fuel + 1) :
    Succeeds total (State.groups (fuel + 1) st (a ++ y :: rest)) ↔
      specs F = (a ++ y :: rest).length ∨ Regular (specs F) (a ++ y :: rest) := by
  have hrest (x : Arg) (hx : x ∈ y :: rest) := types x (List.mem_append_right a hx)
  have hsum : (a ++ y :: rest).length = 4 + (y :: rest).length := by
    rw [List.length_append, hlen]
  rw [hsum] at h hle hfuel ⊢
  rw [groups_four ha hlen]
  rcases Nat.lt_trichotomy (specs F) 4 with hs | hs | hs
  · exact iff_of_false (h.short (.words (by omega)) hs) (not_regular hs (by omega))
  · obtain ⟨st', hst', h'⟩ := h.keep (by omega) (by omega)
    rw [hs] at hst'
    rw [hs, Nat.add_sub_cancel_left] at h'
    rw [hst']
    refine (h'.groups_kept (by omega) hs hrest (by omega)).trans ?_
    have hcons : 0 < (y :: rest).length := Nat.succ_pos _
    constructor
    · rintro ⟨hdvd, hw⟩
      have hab (x : Arg) (hx : x ∈ a ++ y :: rest) : x.isWord = true :=
        (List.mem_append.mp hx).elim (ha x) (hw x)
      refine .inr ⟨1, Nat.one_pos, ?_, ?_, ?_⟩
      · rw [behind_words hab, hs, Nat.add_comm]
      · rw [behind_words hab, hsum]
        omega
      · rw [hs, hsum]
        omega
    · rintro (hall | ⟨m, hm, heq, hdvd, hlt⟩)
      · omega
      · have hle := behind_le (a ++ y :: rest)
        have hw := words_of_behind types (by omega)
        exact ⟨by omega, fun x hx => hw x (List.mem_append_right a hx)⟩
  · obtain ⟨st', G, hst', hG, h'⟩ := h.cut (.words (by omega)) hs (by omega)
    rw [Nat.add_sub_cancel_left] at h'
    rw [hst', hG]
    refine (ih h' (by omega) hrest (by omega) (by simp)).trans (or_congr ?_ ?_)
    · omega
    · exact (regular_four types ha hlen (by omega)).symm

/-- Fewer than four integers and pointers, a double, and what follows it. -/
theorem Decides.flush (ih : Decides total fuel) {rest : List Arg}
    (ha : ∀ x ∈ a, x.isWord = true) (hlen : a.length < 4)
    (h : Scan total st F (a ++ .double v :: rest).length (a ++ .double v :: rest).length)
    (hle : specs F ≤ (a ++ .double v :: rest).length)
    (types : ∀ x ∈ a ++ .double v :: rest, x.isWord = true ∨ x.isDouble = true)
    (hfuel : (a ++ .double v :: rest).length ≤ fuel + 1) :
    Succeeds total (State.groups (fuel + 1) st (a ++ .double v :: rest)) ↔
      specs F = (a ++ .double v :: rest).length ∨ Regular (specs F) (a ++ .double v :: rest) := by
  have hrest (x : Arg) (hx : x ∈ rest) := types x (List.mem_append_right a (.tail _ hx))
  have hreg (q : Nat) := regular_append (a := a) (b := .double v :: rest) q
    ((behind_double a rest v).trans (behind_double [] rest v).symm)
  rw [List.length_append, List.length_cons] at h hle hfuel ⊢
  by_cases ha0 : a = []
  · subst ha0
    rw [List.length_nil, Nat.zero_add] at h hle ⊢
    rw [List.nil_append, groups_double]
    exact ih.double h hle hrest (by omega)
  have hlen0 := List.length_pos_iff.mpr ha0
  rw [groups_flush ha0 ha hlen]
  rcases Nat.lt_trichotomy (specs F) a.length with hs | hs | hs
  · exact iff_of_false (h.short (.words hlen0) hs) (not_regular (by omega) (by omega))
  · obtain ⟨st', hst', h'⟩ := h.keep (by omega) (by omega)
    rw [hs] at hst'
    rw [hs, Nat.add_sub_cancel_left] at h'
    rw [hst']
    refine iff_of_false ?_ (not_regular (by omega) (by omega))
    show ¬ Succeeds total (st'.split 1 true >>= fun st => State.groups fuel st rest)
    by_cases hone : specs F = 1
    · obtain ⟨st'', hst'', h''⟩ := h'.lose_double hone (by omega) (by omega)
      rw [hst'']
      exact h''.groups hrest
    · obtain ⟨st'', hst'', h''⟩ := h'.lose (by omega) .double (by omega) (by omega)
      rw [hst'']
      exact h''.groups hrest
  · obtain ⟨st', G, hst', hG, h'⟩ := h.cut (.words hlen0) hs (by omega)
    rw [Nat.add_sub_cancel_left] at h'
    rw [hst', hG]
    refine (ih.double (v := v) h' (by omega) hrest (by omega)).trans (or_congr ?_ (hreg _).symm)
    omega

/-- The loops succeed if each argument has a specification, or groups of four are left over. -/
theorem decides (total fuel : Nat) : Decides total fuel := by
  induction fuel with
  | zero =>
    intro st F args h hle types hfuel hne
    exact absurd (List.length_eq_zero_iff.mp (Nat.le_zero.mp hfuel)) hne
  | succ fuel ih =>
    intro st F args h hle types hfuel hne
    rcases first_group types 4 with ⟨ha, hlen⟩ | ⟨a, y, rest, rfl, ha, hlen⟩ |
      ⟨a, v, rest, rfl, ha, hlen⟩
    · rw [groups_end hne ha hlen]
      by_cases hs : specs F = args.length
      · have hpos := List.length_pos_iff.mpr hne
        obtain ⟨st', hst', h'⟩ := h.keep (by omega) hle
        rw [← hs, hst']
        exact iff_of_true h'.done (.inl rfl)
      · have hpos := List.length_pos_iff.mpr hne
        exact iff_of_false (h.short (.words hpos) (by omega)) (not_regular (by omega) hs)
    · exact ih.four ha hlen h hle types hfuel
    · exact ih.flush ha hlen h hle types hfuel

/-! ### Whole calls -/

/-- A call that is not broken. -/
def Few (args : List Arg) : Prop := args.length < 5 ∧ ¬ args.any Arg.is2xLen

/-- **No assertion fails** for a call that C allows if and only if it is not broken, each argument
has a conversion of its own, or groups of four are left over. -/
theorem scan_iff (F : List Item) (args : List Arg) (h : Legal F args) :
    (∃ calls, breakPrintfCall (formatOf F) args = .ok calls) ↔
      Few args ∨ specs F = args.length ∨ Regular (specs F) args := by
  unfold breakPrintfCall Few
  by_cases hfew : args.length < 5 ∧ ¬ args.any Arg.is2xLen
  · rw [if_pos hfew]
    exact iff_of_true ⟨none, rfl⟩ (.inl hfew)
  · rw [if_neg hfew]
    have hne : args ≠ [] := by
      rintro rfl
      exact hfew ⟨by decide, by decide⟩
    have hinit : Scan args.length ⟨1, args.length, [], ⟨formatOf F, args.length, false⟩⟩ F
        args.length args.length := ⟨rfl, Nat.zero_add _, rfl, Nat.one_pos, Nat.le_refl _⟩
    have hgroups := decides _ _ hinit h.specs_le h.types (Nat.le_refl _) hne
    rw [or_iff_right hfew, ← hgroups]
    show (∃ calls, (State.groups _ _ args >>= fun st =>
      issueNewCalls st.pcalls args >>= fun calls => pure (some calls)) = .ok calls) ↔ _
    cases hst : State.groups args.length
        ⟨1, args.length, [], ⟨formatOf F, args.length, false⟩⟩ args with
    | error e => exact iff_of_false (fun ⟨_, h⟩ => nomatch h) not_succeeds
    | ok st =>
      have hissue := issue_ok_iff st.pcalls args
      constructor
      · rintro ⟨calls, hcalls⟩
        obtain ⟨st', hst', hcalls⟩ := Library.bind_ok hcalls
        obtain rfl := Except.ok.inj hst'
        obtain ⟨c, hc, -⟩ := Library.bind_ok hcalls
        exact ⟨st, rfl, hissue.mp ⟨c, hc⟩⟩
      · rintro ⟨st', hst', htaken⟩
        obtain rfl := Except.ok.inj hst'
        obtain ⟨calls, hcalls⟩ := hissue.mpr htaken
        refine ⟨some calls, ?_⟩
        show (issueNewCalls st.pcalls args >>= _) = _
        rw [hcalls]
        rfl

def starOf (mods : List Char) (conv : Char) (hm : ∀ c ∈ mods, c = '*' ∨ c ∈ modifiers)
    (hc : conv ∈ conversions) : Item := .conv ⟨mods, conv, hm, hc⟩

theorem no_mods : ∀ c ∈ ([] : List Char), c = '*' ∨ c ∈ modifiers :=
  fun _ hc => absurd hc List.not_mem_nil

theorem star_mod : ∀ c ∈ ['*'], c = '*' ∨ c ∈ modifiers :=
    fun _ hc => .inl (List.mem_singleton.mp hc)

theorem d_conversion : 'd' ∈ conversions := by decide

theorem f_conversion : 'f' ∈ conversions := by decide

/-- `"%d%f"`. -/
def plainFormat : List Item :=
  [starOf [] 'd' no_mods d_conversion, starOf [] 'f' no_mods f_conversion]

theorem plain_scanned : ∃ calls,
    breakPrintfCall (formatOf plainFormat) [.int 32 1, .double 0] = .ok calls :=
  (scan_iff plainFormat [.int 32 1, .double 0]
    (.bare rfl rfl (.bare rfl rfl (.surplus nofun)))).mpr
    (.inr (.inl rfl))

/-- `"%*d%f"`. -/
def starFormat : List Item :=
  [starOf ['*'] 'd' star_mod d_conversion, starOf [] 'f' no_mods f_conversion]

/-- A width from an argument leaves the double to the end of the calls, and with a surplus argument
the post-condition of the scanner does not hold. -/
theorem star_fails :
    (Legal starFormat [.int 32 5, .int 32 1, .double 0] ∧
      breakPrintfCall (formatOf starFormat) [.int 32 5, .int 32 1, .double 0] =
        .error "argit == ocall->arg_end()") ∧
    (Legal [.text 'x' (by decide)] [.double 0] ∧
      breakPrintfCall (formatOf [.text 'x' (by decide)]) [.double 0] =
        .error "count == n + 1 || count == n && pos == s.size()") := by
  refine ⟨⟨?_, rfl⟩, ?_, rfl⟩
  · have hlegal : Legal starFormat ([.int 32 5] ++ [.int 32 1, .double 0]) :=
      .conv rfl (fun x hx => ⟨5, List.mem_singleton.mp hx⟩) rfl (.bare rfl rfl (.surplus nofun))
    exact hlegal
  · refine .text (.surplus fun x hx => ?_)
    rw [List.mem_singleton.mp hx]
    exact .inr rfl

end
end RiscvSbt.Printf
