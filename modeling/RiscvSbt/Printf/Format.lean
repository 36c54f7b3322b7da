import Mathlib.Algebra.Group.Nat.Defs
import Mathlib.Tactic.Common
import RiscvSbt.Printf.Machine

/-! Format strings, as lists of directives.

A conversion specification ends with its only conversion character, and has no percent sign
but the first: what is cut off in front of one starts there. `Matches` pairs each
specification with its argument. -/
namespace RiscvSbt.Printf

def modifiers : List Char := "-+ #0'I123456789.hljztqL".toList

def conversions : List Char := "diouxXcspnaAeEfFgG".toList

/-- A conversion specification behind its percent sign: flags, width, precision and length,
and the conversion. It takes one argument, the next one. -/
structure Spec where
  mods : List Char
  conv : Char
  mods_ok : ∀ c ∈ mods, c ∈ modifiers
  conv_ok : conv ∈ conversions

namespace Spec

def render (s : Spec) : List Char := s.mods ++ [s.conv]

/-- The integers of these lengths have two words, the doubles more. -/
def wide (s : Spec) : Bool :=
  'j' ∈ s.mods || 'q' ∈ s.mods || 'L' ∈ s.mods || 2 ≤ s.mods.count 'l'

/-- Whether an argument has the type that a conversion asks for. -/
def takes (s : Spec) : Arg → Bool
  | .int bits _ => bits ≤ 32 && s.conv ∈ "diouxXc".toList && !s.wide
  | .ptr _ => s.conv ∈ "spn".toList
  | .double _ => s.conv ∈ "aAeEfFgG".toList && !s.wide
  | .float _ => false

theorem no_percent (s : Spec) : ∀ c ∈ s.render, c ≠ '%' := by
  rintro c hc rfl
  rcases List.mem_append.mp hc with hm | hm
  · exact absurd (s.mods_ok _ hm) (by decide)
  · rw [List.mem_singleton] at hm
    exact absurd (hm ▸ s.conv_ok) (by decide)

theorem render_ne (s : Spec) : s.render ≠ [] := by
  simp [render]

end Spec

inductive Directive where
  | text (c : Char) (h : c ≠ '%')
  /-- An escaped percent sign. -/
  | percent
  | conv (s : Spec)

def Directive.render : Directive → List Char
  | .text c _ => [c]
  | .percent => ['%', '%']
  | .conv s => '%' :: s.render

/-- The format string of some directives. -/
def render (F : List Directive) : List Char := F.flatMap Directive.render

@[simp] theorem render_nil : render [] = [] := rfl

@[simp] theorem render_cons (d : Directive) (F : List Directive) :
    render (d :: F) = d.render ++ render F := rfl

@[simp] theorem render_append (F G : List Directive) : render (F ++ G) = render F ++ render G :=
  List.flatMap_append

/-- Each specification has an argument, of its type. -/
inductive Matches : List Directive → List Arg → Prop
  | nil : Matches [] []
  | text {c : Char} {h : c ≠ '%'} {F : List Directive} {args : List Arg} (rest : Matches F args) :
      Matches (.text c h :: F) args
  | percent {F : List Directive} {args : List Arg} (rest : Matches F args) :
      Matches (.percent :: F) args
  | conv {s : Spec} {arg : Arg} {F : List Directive} {args : List Arg} (takes : s.takes arg = true)
      (rest : Matches F args) : Matches (.conv s :: F) (arg :: args)

/-- **Formatting piece by piece**, where a format string is cut between directives. -/
def Additive (format : List Char → List Arg → List UInt8) : Prop :=
  ∀ F G a b, Matches F a → Matches G b →
    format (render (F ++ G)) (a ++ b) = format (render F) a ++ format (render G) b

variable {F G : List Directive} {a b : List Arg}

theorem Matches.append (hF : Matches F a) (hG : Matches G b) : Matches (F ++ G) (a ++ b) := by
  induction hF with
  | nil => exact hG
  | text _ ih => exact .text ih
  | percent _ ih => exact .percent ih
  | conv takes _ ih => exact .conv takes ih

/-- Behind some arguments a format can be cut in front of a specification. -/
theorem Matches.cut (h : Matches F (a ++ b)) (hb : b ≠ []) :
    ∃ F₁ s F₂, F = F₁ ++ .conv s :: F₂ ∧ Matches F₁ a ∧ Matches (.conv s :: F₂) b := by
  generalize heq : a ++ b = args at h
  induction h generalizing a with
  | nil => exact absurd (List.append_eq_nil_iff.mp heq).2 hb
  | @text c hc F args _ ih =>
    obtain ⟨F₁, s, F₂, hF, h₁, h₂⟩ := ih heq
    exact ⟨.text c hc :: F₁, s, F₂, congrArg _ hF, .text h₁, h₂⟩
  | percent _ ih =>
    obtain ⟨F₁, s, F₂, hF, h₁, h₂⟩ := ih heq
    exact ⟨.percent :: F₁, s, F₂, congrArg _ hF, .percent h₁, h₂⟩
  | @conv s arg F args takes rest ih =>
    cases a with
    | nil =>
      have heq : b = arg :: args := heq
      exact ⟨[], s, F, rfl, .nil, heq ▸ .conv takes rest⟩
    | cons x a =>
      obtain ⟨rfl, htail⟩ := List.cons.inj heq
      obtain ⟨F₁, s', F₂, hF, h₁, h₂⟩ := ih htail
      exact ⟨.conv s :: F₁, s', F₂, congrArg _ hF, .conv takes h₁, h₂⟩

/-- No argument of a format is a `float`, or an integer of more than 32 bits. -/
theorem Matches.types (h : Matches F a) : ∀ x ∈ a, (∃ bits v, x = .int bits v ∧ bits ≤ 32) ∨
    (∃ v, x = .ptr v) ∨ ∃ v, x = .double v := by
  induction h with
  | nil => exact nofun
  | text _ ih => exact ih
  | percent _ ih => exact ih
  | @conv s arg F args takes _ ih =>
    intro x hx
    rcases List.mem_cons.mp hx with rfl | hx
    · cases x with
      | int bits v =>
        have hbits : bits ≤ 32 := by
          simp only [Spec.takes, Bool.and_eq_true, decide_eq_true_eq] at takes
          exact takes.1.1
        exact .inl ⟨bits, v, rfl, hbits⟩
      | ptr v => exact .inr (.inl ⟨v, rfl⟩)
      | float v => cases takes
      | double v => exact .inr (.inr ⟨v, rfl⟩)
    · exact ih x hx

/-! ### A formatter -/

def bytes (s : List Char) : List UInt8 := s.map fun c => c.toNat.toUInt8

def signed (neg : Bool) (digits : List Char) : List UInt8 :=
  bytes (if neg then '-' :: digits else digits)

/-- A finite double with six decimals, rounded half to even. -/
def fixed (v : BitVec 64) : List UInt8 :=
  let e := (v.extractLsb' 52 11).toNat
  let m := (v.extractLsb' 0 52).toNat
  -- The value is `num / 2 ^ 1074`, in millionths.
  let num := (if e = 0 then m else (m + 2 ^ 52) * 2 ^ (e - 1)) * 10 ^ 6
  let q := num / 2 ^ 1074
  let r := num % 2 ^ 1074
  let q := if 2 ^ 1073 < r ∨ r = 2 ^ 1073 ∧ q % 2 = 1 then q + 1 else q
  let frac := Nat.toDigits 10 (q % 10 ^ 6)
  signed v.msb (Nat.toDigits 10 (q / 10 ^ 6) ++ '.' :: List.replicate (6 - frac.length) '0' ++ frac)

/-- `%d` and `%f`. -/
def convert (conv : Char) (arg : Arg) : List UInt8 :=
  match arg with
  | .int _ v => if conv = 'd' then signed v.msb (Nat.toDigits 10 v.toInt.natAbs) else []
  | .double v => if conv = 'f' then fixed v else []
  | _ => []

/-- Goes through a format, behind a percent sign or not. -/
def formatFrom : Bool → List Char → List Arg → List UInt8
  | _, [], _ => []
  | false, c :: s, args =>
    if c = '%' then formatFrom true s args else bytes [c] ++ formatFrom false s args
  | true, c :: s, args =>
    if c = '%' then bytes ['%'] ++ formatFrom false s args
    else if c ∈ conversions then
      convert c (args.headD (.ptr 0)) ++ formatFrom false s args.tail
    else formatFrom true s args

theorem modifiers_plain : ∀ c ∈ modifiers, c ≠ '%' ∧ c ∉ conversions := by
  have hall : modifiers.all (fun c => c ≠ '%' && !conversions.contains c) = true := by
    decide +kernel
  simpa using hall

theorem formatFrom_mods {mods : List Char} (hm : ∀ c ∈ mods, c ∈ modifiers) (s : List Char)
    (args : List Arg) : formatFrom true (mods ++ s) args = formatFrom true s args := by
  induction mods with
  | nil => rfl
  | cons c mods ih =>
    have hc : c ∈ modifiers := hm c List.mem_cons_self
    obtain ⟨hp, hn⟩ := modifiers_plain c hc
    rw [List.cons_append, formatFrom, if_neg hp, if_neg hn]
    exact ih fun x hx => hm x (List.mem_cons_of_mem c hx)

theorem formatFrom_render (h : Matches F a) (s : List Char) (b : List Arg) :
    formatFrom false (render F ++ s) (a ++ b) =
      formatFrom false (render F) a ++ formatFrom false s b := by
  induction h with
  | nil => rfl
  | @text c hc F args _ ih =>
    simp only [render_cons, Directive.render, List.cons_append, List.nil_append, formatFrom,
      if_neg hc, ih, List.append_assoc]
  | percent _ ih =>
    simp only [render_cons, Directive.render, List.cons_append, List.nil_append, formatFrom, if_pos,
      ih, List.append_assoc]
  | @conv sp arg F args _ _ ih =>
    have hp : sp.conv ≠ '%' := sp.no_percent _ (by simp [Spec.render])
    simp only [render_cons, Directive.render, Spec.render, List.cons_append, List.nil_append,
      List.append_assoc, formatFrom, if_pos, formatFrom_mods sp.mods_ok, if_neg hp,
      if_pos sp.conv_ok, List.headD_cons, List.tail_cons, ih]

theorem formatFrom_additive : Additive (formatFrom false) := by
  intro F G a b hF _
  rw [render_append]
  exact formatFrom_render hF (render G) b

end RiscvSbt.Printf
