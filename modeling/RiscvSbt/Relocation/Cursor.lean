import Mathlib.Data.List.ReduceOption
import RiscvSbt.Relocation.Machine

/-! What the cursor over the relocations answers.

The relocations of a section and the proxies of calls are taken as the translation asks for
them, at increasing addresses. The answer to each question depends on the list of relocations
alone, and on whether the first instruction of a call has been asked for. -/
namespace RiscvSbt.Relocation
open Library

/-- A question at an address: that of `handleRelocation`, or of `skipRelocation`. -/
inductive Query where
  | handle (addr : Nat)
  | skip (addr : Nat)
  deriving DecidableEq

def Query.addr : Query → Nat
  | handle addr | skip addr => addr

/-- The proxies of a call. -/
def Reloc.hi (r : Reloc) : Reloc := {r with type := .PROXY_CALL_HI}

def Reloc.lo (r : Reloc) : Reloc :=
  {r with type := .PROXY_CALL_LO, hiPC := r.offset, offset := r.offset + 4}

namespace SBTRelocation

/-- The part of `handleRelocation` that the cursor sees. -/
def handle (rel : SBTRelocation) (addr : Nat) : Except String (Option Reloc × SBTRelocation) := do
  let (r, rel) ← rel.next addr
  match r with
  | none => pure (none, rel)
  | some r => pure (some r, {rel with last := some r})

def ask (rel : SBTRelocation) : Query → Except String (Option Reloc × SBTRelocation)
  | .handle addr => rel.handle addr
  | .skip addr => rel.getReloc addr

def asks (rel : SBTRelocation) : List Query → Except String (List (Option Reloc) × SBTRelocation)
  | [] => pure ([], rel)
  | q :: qs => do
    let (r, rel) ← rel.ask q
    let (rs, rel) ← rel.asks qs
    pure (r :: rs, rel)

end SBTRelocation

/-! ### The answers -/

/-- The relocation of an address. -/
def relocAt (relocs : List Reloc) (addr : Nat) : Option Reloc :=
  relocs.find? fun r => r.type ≠ .RELAX && r.offset = addr

/-- The call whose second instruction is at an address, if its first one was handled. -/
def callBefore (relocs : List Reloc) (asked : List Query) (addr : Nat) : Option Reloc :=
  relocs.find? fun r => r.type = .CALL && r.offset + 4 = addr && .handle r.offset ∈ asked

/-- The answer to a question, after others. -/
def answer (relocs : List Reloc) (asked : List Query) (q : Query) : Option Reloc :=
  match relocAt relocs q.addr with
  | some r => some (if r.type = .CALL ∧ q = .handle r.offset then r.hi else r)
  | none => (callBefore relocs asked q.addr).map Reloc.lo

def answers (relocs : List Reloc) : List Query → List Query → List (Option Reloc)
  | _, [] => []
  | asked, q :: qs => answer relocs asked q :: answers relocs (q :: asked) qs

/-- What was handled last, after one more question. -/
def remember (last : Option Reloc) : Query × Option Reloc → Option Reloc
  | (.handle _, some r) => some r
  | _ => last

def lastHandled (relocs : List Reloc) (qs : List Query) : Option Reloc :=
  (qs.zip (answers relocs [] qs)).foldl remember none

/-- The relocations of a text section: sorted, each address with one at most but for the
relaxations, and none of the others at the second instruction of a call. -/
structure Listed (relocs : List Reloc) : Prop where
  sorted : relocs.Pairwise fun r r' => r.offset ≤ r'.offset
  single : relocs.Pairwise fun r r' => r.type ≠ .RELAX → r'.type ≠ .RELAX → r.offset ≠ r'.offset
  second : ∀ r ∈ relocs, ∀ r' ∈ relocs, r.type = .CALL → r'.type ≠ .RELAX → r'.offset ≠ r.offset + 4
  given : ∀ r ∈ relocs, r.type ≠ .PROXY_CALL_HI ∧ r.type ≠ .PROXY_CALL_LO

/-- No call begins inside of the first instruction of another one. -/
def Disjoint (relocs : List Reloc) : Prop :=
  ∀ r ∈ relocs, ∀ r' ∈ relocs, r.type = .CALL → r'.type = .CALL →
    ¬ (r.offset < r'.offset ∧ r'.offset < r.offset + 4)

def Increasing (qs : List Query) : Prop := qs.Pairwise fun q q' => q.addr < q'.addr

variable {relocs : List Reloc} {rel rel' : SBTRelocation} {asked qs : List Query} {q : Query}
  {r : Reloc} {a b : Nat}

theorem Listed.tail {r : Reloc} (h : Listed (r :: relocs)) : Listed relocs :=
  ⟨(List.pairwise_cons.mp h.sorted).2, (List.pairwise_cons.mp h.single).2,
    fun x hx y hy => h.second x (.tail r hx) y (.tail r hy), fun x hx => h.given x (.tail r hx)⟩

/-! ### Going through the list -/

theorem behind_cons (r : Reloc) (relocs : List Reloc) (a : Nat) :
    SBTRelocation.behind a (r :: relocs) =
      if r.offset < a ∨ r.type = .RELAX then SBTRelocation.behind a relocs else r :: relocs := by
  unfold SBTRelocation.behind
  by_cases h : r.offset < a ∨ r.type = .RELAX
  · simp [h]
  · simp [h]

theorem behind_behind (h : a ≤ b) :
    SBTRelocation.behind b (SBTRelocation.behind a relocs) = SBTRelocation.behind b relocs := by
  induction relocs with
  | nil => rfl
  | cons r relocs ih =>
    rw [behind_cons r relocs a]
    split
    next hdrop =>
      rw [ih, behind_cons, if_pos (hdrop.imp_left fun hlt => by omega)]
    next => rfl

theorem behind_idem (h : a ≤ b) :
    SBTRelocation.behind a (SBTRelocation.behind b relocs) = SBTRelocation.behind b relocs := by
  induction relocs with
  | nil => rfl
  | cons r relocs ih =>
    rw [behind_cons r relocs b]
    split
    next => exact ih
    next hno =>
      rw [behind_cons, if_neg fun hdrop => hno (hdrop.imp_left fun hlt => by omega)]

/-- Past an address where no relocation is left, only relaxations are to be skipped. -/
theorem skipRelax_eq (h : ∀ r ∈ relocs, r.type ≠ .RELAX → a < r.offset) :
    SBTRelocation.skipRelax relocs = SBTRelocation.behind (a + 1) relocs := by
  induction relocs with
  | nil => rfl
  | cons r relocs ih =>
    unfold SBTRelocation.skipRelax at ih ⊢
    rw [behind_cons]
    by_cases hr : r.type = .RELAX
    · simpa [hr] using ih fun x hx => h x (.tail r hx)
    · have := h r List.mem_cons_self hr
      have hno : ¬ (r.offset < a + 1 ∨ r.type = .RELAX) := by
        intro hor
        rcases hor with hlt | heq
        · omega
        · exact hr heq
      rw [if_neg hno]
      simp [hr]

theorem behind_ge (h : r ∈ SBTRelocation.behind a relocs)
    (hs : relocs.Pairwise fun r r' => r.offset ≤ r'.offset) : a ≤ r.offset := by
  induction relocs with
  | nil => simp [SBTRelocation.behind] at h
  | cons x relocs ih =>
    rw [behind_cons] at h
    split at h
    next => exact ih h (List.pairwise_cons.mp hs).2
    next hno =>
      have hx : a ≤ x.offset := by omega
      cases h with
      | head => exact hx
      | tail _ h => exact Nat.le_trans hx ((List.pairwise_cons.mp hs).1 r h)

/-- **What is taken at an address.** -/
theorem take_behind (h : Listed relocs) (a : Nat) :
    SBTRelocation.take a (SBTRelocation.behind a relocs) =
      .ok ((relocAt relocs a).map fun r => (r, SBTRelocation.behind (a + 1) relocs)) := by
  induction relocs with
  | nil => rfl
  | cons x relocs ih =>
    obtain ⟨hle, -⟩ := List.pairwise_cons.mp h.sorted
    obtain ⟨hne, -⟩ := List.pairwise_cons.mp h.single
    rw [behind_cons, behind_cons]
    by_cases hdrop : x.offset < a ∨ x.type = .RELAX
    · have hnext : x.offset < a + 1 ∨ x.type = .RELAX := hdrop.imp_left fun hlt => by omega
      have hat : relocAt (x :: relocs) a = relocAt relocs a := by
        have hno : (x.type ≠ .RELAX && x.offset = a : Bool) = false := by
          rcases hdrop with hlt | hx
          · simp [show x.offset ≠ a by omega]
          · simp [hx]
        simp only [relocAt, List.find?_cons, hno]
      rw [if_pos hdrop, if_pos hnext, hat]
      exact ih h.tail
    · obtain ⟨hge, hx⟩ := not_or.mp hdrop
      rw [if_neg hdrop]
      by_cases hxa : x.offset = a
      · have hlater : ∀ r ∈ relocs, r.type ≠ .RELAX → a < r.offset := fun r hr hrx => by
          have := hle r hr
          have := hne r hr hx hrx
          omega
        have hat : relocAt (x :: relocs) a = some x := by simp [relocAt, hx, hxa]
        rw [if_pos (.inl (by omega)), hat, Option.map_some]
        show (if x.offset ≠ a then _ else _) = _
        rw [if_neg (not_not.mpr hxa), skipRelax_eq hlater]
        cases hb : SBTRelocation.behind (a + 1) relocs with
        | nil => rfl
        | cons y rest =>
          have := behind_ge (hb ▸ List.mem_cons_self) (List.pairwise_cons.mp h.sorted).2
          simp only [if_neg (show y.offset ≠ a by omega)]
          rfl
      · have hnone : relocAt (x :: relocs) a = none := by
          apply List.find?_eq_none.mpr
          intro r hr
          have : x.offset ≤ r.offset := by
            cases hr with
            | head => exact Nat.le_refl _
            | tail _ hr => exact hle r hr
          simp [show r.offset ≠ a by omega]
        rw [hnone]
        show (if x.offset ≠ a then _ else _) = _
        rw [if_pos hxa]
        rfl

theorem relocAt_some (h : relocAt relocs a = some r) :
    r ∈ relocs ∧ r.type ≠ .RELAX ∧ r.offset = a := by
  have hp := List.find?_some h
  simp only [Bool.and_eq_true, decide_eq_true_eq] at hp
  exact ⟨List.mem_of_find?_eq_some h, hp.1, hp.2⟩

theorem Listed.unique (h : Listed relocs) {x y : Reloc} (hx : x ∈ relocs) (hy : y ∈ relocs)
    (hxr : x.type ≠ .RELAX) (hyr : y.type ≠ .RELAX) (heq : x.offset = y.offset) : x = y := by
  induction relocs with
  | nil => simp at hx
  | cons z relocs ih =>
    have hne := (List.pairwise_cons.mp h.single).1
    cases hx with
    | head =>
      cases hy with
      | head => rfl
      | tail _ hy => exact absurd heq (hne y hy hxr hyr)
    | tail _ hx =>
      cases hy with
      | head => exact absurd heq.symm (hne x hx hyr hxr)
      | tail _ hy => exact ih h.tail hx hy

theorem relocAt_mem (h : Listed relocs) (hr : r ∈ relocs) (hx : r.type ≠ .RELAX) :
    relocAt relocs r.offset = some r := by
  cases hat : relocAt relocs r.offset with
  | none => simpa [hx] using List.find?_eq_none.mp hat r hr
  | some x =>
    obtain ⟨hmem, hxr, heq⟩ := relocAt_some hat
    rw [h.unique hmem hr hxr hx heq]

theorem callBefore_some (h : callBefore relocs asked a = some r) :
    r ∈ relocs ∧ r.type = .CALL ∧ r.offset + 4 = a ∧ .handle r.offset ∈ asked := by
  have hp := List.find?_some h
  simp only [Bool.and_eq_true, decide_eq_true_eq] at hp
  exact ⟨List.mem_of_find?_eq_some h, hp.1.1, hp.1.2, hp.2⟩

theorem callBefore_none (h : callBefore relocs asked a = none) (hr : r ∈ relocs)
    (hc : r.type = .CALL) (hq : .handle r.offset ∈ asked) : r.offset + 4 ≠ a := by
  intro heq
  simpa [hc, heq, hq] using List.find?_eq_none.mp h r hr

/-! ### The cursor -/

/-- The cursor after some questions: what is left of the list, and at most the second proxy of
the call that was handled last, which is there until its address is past. -/
structure Follows (relocs : List Reloc) (asked : List Query) (rel : SBTRelocation) : Prop where
  rest : ∀ a, (∀ q ∈ asked, q.addr < a) →
    SBTRelocation.behind a rel.relocs = SBTRelocation.behind a relocs
  proxies : rel.proxyRelocs = [] ∨
    ∃ r ∈ relocs, r.type = .CALL ∧ .handle r.offset ∈ asked ∧ rel.proxyRelocs = [r.lo]
  waits : ∀ r ∈ relocs, r.type = .CALL → .handle r.offset ∈ asked →
    (∀ q ∈ asked, q.addr < r.offset + 4) → rel.proxyRelocs = [r.lo]

theorem Follows.init (relocs : List Reloc) : Follows relocs [] {relocs := relocs} :=
  ⟨fun _ _ => rfl, .inl rfl, fun _ _ _ h => by simp at h⟩

/-- The proxies that are left at an address. -/
def proxiesAt (rel : SBTRelocation) (a : Nat) : List Reloc :=
    rel.proxyRelocs.dropWhile (·.offset < a)

section Ask
variable (h : Follows relocs asked rel) (hl : Listed relocs) (hlt : ∀ q ∈ asked, q.addr < a)
include h hl hlt

theorem getReloc_eq : rel.getReloc a = (do
    match (relocAt relocs a).map fun r => (r, SBTRelocation.behind (a + 1) relocs) with
    | some (r, rest) => pure (some r, {rel with relocs := rest, proxyRelocs := proxiesAt rel a})
    | none =>
      match ← SBTRelocation.take a (proxiesAt rel a) with
      | some (r, rest) =>
        pure (some r, {rel with relocs := SBTRelocation.behind a relocs, proxyRelocs := rest})
      | none =>
        pure (none, {rel with
          relocs := SBTRelocation.behind a relocs
          proxyRelocs := proxiesAt rel a})) := by
  unfold SBTRelocation.getReloc
  simp only [h.rest a hlt, take_behind hl a, bind, Except.bind]
  cases relocAt relocs a with
  | none => rfl
  | some r => rfl

theorem getReloc_some (hr : relocAt relocs a = some r) : rel.getReloc a =
    .ok (some r, {rel with
      relocs := SBTRelocation.behind (a + 1) relocs
      proxyRelocs := proxiesAt rel a}) := by
  rw [getReloc_eq h hl hlt, hr]
  rfl

theorem getReloc_lo (hr : relocAt relocs a = none) (hc : callBefore relocs asked a = some r) :
    rel.getReloc a = .ok (some r.lo,
      {rel with relocs := SBTRelocation.behind a relocs, proxyRelocs := proxiesAt rel (a + 1)}) :=
      by
  obtain ⟨hmem, hcall, haddr, hq⟩ := callBefore_some hc
  have hprox := h.waits r hmem hcall hq fun q hq => by
    have := hlt q hq
    omega
  have hoffs : r.lo.offset = a := haddr
  have hleft : proxiesAt rel a = [r.lo] := by simp [proxiesAt, hprox, hoffs]
  have hnext : proxiesAt rel (a + 1) = [] := by simp [proxiesAt, hprox, hoffs]
  have htake : SBTRelocation.take a [r.lo] = .ok (some (r.lo, [])) := by
    show (if r.lo.offset ≠ a then _ else _) = _
    rw [if_neg (not_not.mpr hoffs)]
    rfl
  rw [getReloc_eq h hl hlt, hr, hleft, hnext]
  simp only [Option.map_none, htake]
  rfl

theorem getReloc_none (hr : relocAt relocs a = none) (hc : callBefore relocs asked a = none) :
    rel.getReloc a = .ok (none,
      {rel with relocs := SBTRelocation.behind a relocs, proxyRelocs := proxiesAt rel a}) := by
  have htake : SBTRelocation.take a (proxiesAt rel a) = .ok none := by
    rcases h.proxies with hnil | ⟨x, hx, hcall, hq, hone⟩
    · simp [proxiesAt, hnil, SBTRelocation.take, pure, Except.pure]
    · have hne : x.lo.offset ≠ a := callBefore_none hc hx hcall hq
      by_cases hpast : x.lo.offset < a
      · simp [proxiesAt, hone, hpast, SBTRelocation.take, pure, Except.pure]
      · simp [proxiesAt, hone, hpast, SBTRelocation.take, hne, pure, Except.pure]
  rw [getReloc_eq h hl hlt, hr]
  simp only [Option.map_none, htake]
  rfl

omit hl hlt in
/-- A question that handles no call. -/
theorem Follows.next (hq : q.addr = a) (hno : ∀ r ∈ relocs, r.type = .CALL → q ≠ .handle r.offset)
    (hrel : ∀ b, a < b → SBTRelocation.behind b rel'.relocs = SBTRelocation.behind b relocs)
    (hprox : rel'.proxyRelocs = proxiesAt rel a ∨ rel'.proxyRelocs = proxiesAt rel (a + 1)) :
    Follows relocs (q :: asked) rel' := by
  refine ⟨fun b hb => hrel b (hq ▸ hb q List.mem_cons_self), ?_, fun r hr hc hask hall => ?_⟩
  · rcases h.proxies with hnil | ⟨x, hx, hcall, hask, hone⟩
    · left
      rcases hprox with hp | hp <;> simp [hp, proxiesAt, hnil]
    · have hor : ∀ b, proxiesAt rel b = [] ∨ proxiesAt rel b = [x.lo] := by
        intro b
        by_cases hpast : x.lo.offset < b
        · simp [proxiesAt, hone, hpast]
        · simp [proxiesAt, hone, hpast]
      have hmem : .handle x.offset ∈ q :: asked := .tail q hask
      rcases hprox with hp | hp <;> rw [hp]
      · exact (hor a).imp_right fun hx' => ⟨x, hx, hcall, hmem, hx'⟩
      · exact (hor (a + 1)).imp_right fun hx' => ⟨x, hx, hcall, hmem, hx'⟩
  · have hask : .handle r.offset ∈ asked := by
      cases hask with
      | head => exact absurd rfl (hno r hr hc)
      | tail _ hask => exact hask
    have hone := h.waits r hr hc hask fun x hx => hall x (.tail q hx)
    have hbefore : a < r.lo.offset := hq ▸ hall q List.mem_cons_self
    have hkept : ∀ b ≤ r.lo.offset, proxiesAt rel b = [r.lo] := by
      intro b hb
      have hnot : ¬ r.lo.offset < b := by omega
      simp [proxiesAt, hone, hnot]
    rcases hprox with hp | hp <;> rw [hp]
    · exact hkept a (by omega)
    · exact hkept (a + 1) hbefore

/-- A call: its first proxy is taken at once, the second one waits. -/
theorem handle_call (hd : Disjoint relocs) (hr : relocAt relocs a = some r) (hc : r.type = .CALL) :
    ∃ rel', rel.handle a = .ok (some r.hi, rel') ∧ Follows relocs (.handle a :: asked) rel' ∧
      rel'.last = some r.hi := by
  obtain ⟨hmem, hrelax, haddr⟩ := relocAt_some hr
  have hempty : proxiesAt rel a = [] := by
    rcases h.proxies with hnil | ⟨x, hx, hcall, hask, hone⟩
    · simp [proxiesAt, hnil]
    · have hbefore : x.offset < a := hlt _ hask
      have hsecond := hl.second x hx r hmem hcall hrelax
      have hinside := hd x hx r hmem hcall hc
      have hpast : x.lo.offset < a := by
        show x.offset + 4 < a
        omega
      simp [proxiesAt, hone, hpast]
  have hnothing : SBTRelocation.take a (SBTRelocation.behind (a + 1) relocs) = .ok none := by
    cases hb : SBTRelocation.behind (a + 1) relocs with
    | nil => rfl
    | cons y rest =>
      have := behind_ge (hb ▸ List.mem_cons_self) hl.sorted
      show (if y.offset ≠ a then _ else _) = _
      rw [if_pos (by omega)]
      rfl
  have hhi : SBTRelocation.take a [r.hi, r.lo] = .ok (some (r.hi, [r.lo])) := by
    have hsecond : r.lo.offset ≠ a := by
      show r.offset + 4 ≠ a
      omega
    have hhere : r.hi.offset = a := haddr
    show (if r.hi.offset ≠ a then _ else _) = _
    rw [if_neg (not_not.mpr hhere)]
    show (if r.lo.offset = a then _ else _) = _
    rw [if_neg hsecond]
    rfl
  refine ⟨{ rel with
      relocs := SBTRelocation.behind (a + 1) relocs
      proxyRelocs := [r.lo]
      last := some r.hi }, ?_, ?_, rfl⟩
  · have hstay : [r.hi, r.lo].dropWhile (·.offset < a) = [r.hi, r.lo] := by
      simp [show ¬ r.hi.offset < a from Nat.not_lt.mpr (Nat.le_of_eq haddr.symm)]
    unfold SBTRelocation.handle SBTRelocation.next
    rw [getReloc_some h hl hlt hr, hempty]
    simp only [bind, Except.bind, if_pos hc]
    have hproxies : ([] ++ [r.hi, r.lo]).dropWhile (·.offset < a) = [r.hi, r.lo] := hstay
    unfold SBTRelocation.getReloc SBTRelocation.addProxyReloc
    simp only [behind_idem (Nat.le_succ a), hnothing, bind, Except.bind]
    unfold Reloc.hi Reloc.lo at hproxies hhi ⊢
    simp only [hproxies, hhi]
    rfl
  · refine ⟨fun b hb => ?_, .inr ⟨r, hmem, hc, haddr ▸ List.mem_cons_self, rfl⟩,
      fun x hx hcall hask hall => ?_⟩
    · have : a < b := hb _ List.mem_cons_self
      exact behind_behind (by omega)
    · have hxr : x.offset = r.offset := by
        cases hask with
        | head => exact haddr.symm
        | tail _ hask =>
          have hbefore : x.offset < a := hlt _ hask
          have hafter : a < x.offset + 4 := hall _ List.mem_cons_self
          exact absurd ⟨haddr ▸ hbefore, haddr ▸ hafter⟩ (hd x hx r hmem hcall hc)
      rw [hl.unique hx hmem (by simp [hcall]) hrelax hxr]

/-- **One question.** -/
theorem ask_answer (hd : Disjoint relocs) (hq : q.addr = a) : ∃ rel',
    rel.ask q = .ok (answer relocs asked q, rel') ∧ Follows relocs (q :: asked) rel' ∧
      rel'.last = remember rel.last (q, answer relocs asked q) := by
  have hpast : ∀ b, a < b → SBTRelocation.behind b (SBTRelocation.behind (a + 1) relocs) =
      SBTRelocation.behind b relocs := fun b hb => behind_behind hb
  have hhere : ∀ b, a < b → SBTRelocation.behind b (SBTRelocation.behind a relocs) =
      SBTRelocation.behind b relocs := fun b hb => behind_behind (Nat.le_of_lt hb)
  cases q with
  | skip addr =>
    obtain rfl : addr = a := hq
    have hno : ∀ x ∈ relocs, x.type = .CALL → Query.skip addr ≠ .handle x.offset := by simp
    simp only [SBTRelocation.ask, answer, Query.addr]
    cases hr : relocAt relocs addr with
    | some r =>
      refine ⟨{ rel with
          relocs := SBTRelocation.behind (addr + 1) relocs
          proxyRelocs := proxiesAt rel addr }, ?_, h.next rfl hno hpast (.inl rfl), rfl⟩
      rw [getReloc_some h hl hlt hr]
      simp
    | none =>
      cases hc : callBefore relocs asked addr with
      | some r =>
        exact ⟨{ rel with
            relocs := SBTRelocation.behind addr relocs
            proxyRelocs := proxiesAt rel (addr + 1) },
          getReloc_lo h hl hlt hr hc, h.next rfl hno hhere (.inr rfl), rfl⟩
      | none =>
        exact ⟨{ rel with
            relocs := SBTRelocation.behind addr relocs
            proxyRelocs := proxiesAt rel addr },
          getReloc_none h hl hlt hr hc, h.next rfl hno hhere (.inl rfl), rfl⟩
  | handle addr =>
    obtain rfl : addr = a := hq
    simp only [SBTRelocation.ask, answer, Query.addr]
    cases hr : relocAt relocs addr with
    | some r =>
      obtain ⟨hmem, hrelax, haddr⟩ := relocAt_some hr
      by_cases hc : r.type = .CALL
      · obtain ⟨rel', hrun, hf, hlast⟩ := handle_call h hl hlt hd hr hc
        refine ⟨rel', ?_, hf, ?_⟩
        · simp [hrun, hc, haddr]
        · simp [hlast, hc, haddr, remember]
      · have hno : ∀ x ∈ relocs, x.type = .CALL → Query.handle addr ≠ .handle x.offset := by
          intro x hx hcall heq
          have hxr : x.offset = r.offset := (Query.handle.inj heq).symm.trans haddr.symm
          exact hc (hl.unique hx hmem (by simp [hcall]) hrelax hxr ▸ hcall)
        refine ⟨{ rel with
            relocs := SBTRelocation.behind (addr + 1) relocs
            proxyRelocs := proxiesAt rel addr
            last := some r }, ?_, h.next rfl hno hpast (.inl rfl), ?_⟩
        · unfold SBTRelocation.handle SBTRelocation.next
          rw [getReloc_some h hl hlt hr]
          simp [bind, Except.bind, hc, pure, Except.pure]
        · simp [hc, remember]
    | none =>
      have hno : ∀ x ∈ relocs, x.type = .CALL → Query.handle addr ≠ .handle x.offset := by
        intro x hx hcall heq
        have hat := relocAt_mem hl hx (by simp [hcall])
        rw [← Query.handle.inj heq, hr] at hat
        cases hat
      cases hc : callBefore relocs asked addr with
      | some r =>
        refine ⟨{ rel with
            relocs := SBTRelocation.behind addr relocs
            proxyRelocs := proxiesAt rel (addr + 1)
            last := some r.lo }, ?_, h.next rfl hno hhere (.inr rfl), rfl⟩
        unfold SBTRelocation.handle SBTRelocation.next
        rw [getReloc_lo h hl hlt hr hc]
        rfl
      | none =>
        refine ⟨{ rel with
            relocs := SBTRelocation.behind addr relocs
            proxyRelocs := proxiesAt rel addr }, ?_, h.next rfl hno hhere (.inl rfl), rfl⟩
        unfold SBTRelocation.handle SBTRelocation.next
        rw [getReloc_none h hl hlt hr hc]
        rfl

end Ask

/-- **Many questions**, at increasing addresses. -/
theorem asks_answers (hl : Listed relocs) (hd : Disjoint relocs) (h : Follows relocs asked rel)
    (hi : Increasing qs) (hlt : ∀ x ∈ asked, ∀ q ∈ qs, x.addr < q.addr) :
    ∃ rel', rel.asks qs = .ok (answers relocs asked qs, rel') ∧
      rel'.last = (qs.zip (answers relocs asked qs)).foldl remember rel.last := by
  induction qs generalizing asked rel with
  | nil => exact ⟨rel, rfl, rfl⟩
  | cons q qs ih =>
    obtain ⟨hfirst, hrest⟩ := List.pairwise_cons.mp hi
    obtain ⟨rel₁, hask, hf, hlast⟩ :=
      ask_answer h hl (fun x hx => hlt x hx q List.mem_cons_self) hd rfl
    have hnext : ∀ x ∈ q :: asked, ∀ q' ∈ qs, x.addr < q'.addr := by
      intro x hx q' hq'
      cases hx with
      | head => exact hfirst q' hq'
      | tail _ hx => exact hlt x hx q' (.tail q hq')
    obtain ⟨rel₂, hasks, hlast₂⟩ := ih hf hrest hnext
    refine ⟨rel₂, ?_, ?_⟩
    · unfold SBTRelocation.asks
      rw [hask]
      simp only [bind, Except.bind, hasks]
      rfl
    · rw [hlast₂, hlast]
      rfl

/-! ### What is answered -/

/-- Where an answer comes from. -/
theorem answer_some {x : Reloc} (h : answer relocs asked q = some x) : x.offset = q.addr ∧
    (x ∈ relocs ∨ ∃ r ∈ relocs, r.type = .CALL ∧ (x = r.hi ∨ x = r.lo)) := by
  unfold answer at h
  cases hr : relocAt relocs q.addr with
  | some r =>
    obtain ⟨hmem, -, haddr⟩ := relocAt_some hr
    rw [hr] at h
    obtain rfl := Option.some.inj h
    split
    next hc => exact ⟨haddr, .inr ⟨r, hmem, hc.1, .inl rfl⟩⟩
    next => exact ⟨haddr, .inl hmem⟩
  | none =>
    rw [hr] at h
    obtain ⟨r, hc, rfl⟩ := Option.map_eq_some_iff.mp h
    obtain ⟨hmem, hcall, haddr, -⟩ := callBefore_some hc
    exact ⟨haddr, .inr ⟨r, hmem, hcall, .inr rfl⟩⟩

theorem mem_answers {p : Query × Option Reloc} (h : p ∈ qs.zip (answers relocs asked qs)) :
    ∃ asked', p.2 = answer relocs asked' p.1 := by
  induction qs generalizing asked with
  | nil => simp at h
  | cons q qs ih =>
    rw [answers, List.zip_cons_cons] at h
    cases h with
    | head => exact ⟨asked, rfl⟩
    | tail _ h => exact ih h

theorem remember_mem {ps : List (Query × Option Reloc)} {last : Option Reloc} {x : Reloc}
    (h : ps.foldl remember last = some x) : last = some x ∨ ∃ p ∈ ps, p.2 = some x := by
  induction ps generalizing last with
  | nil => exact .inl h
  | cons p ps ih =>
    rcases ih h with hp | ⟨p', hp', heq⟩
    · unfold remember at hp
      split at hp
      next => exact .inr ⟨_, List.mem_cons_self, hp⟩
      next => exact .inl hp
    · exact .inr ⟨p', .tail p hp', heq⟩

/-- No address is answered twice. -/
theorem answers_increasing (hi : Increasing qs) :
    (answers relocs asked qs).reduceOption.Pairwise fun r r' => r.offset < r'.offset := by
  have hbound : ∀ qs asked, ∀ r ∈ (answers relocs asked qs).reduceOption, ∃ q ∈ qs,
      r.offset = q.addr := by
    intro qs
    induction qs with
    | nil => simp [answers]
    | cons q qs ih =>
      intro asked r hr
      have hr : some r ∈ answers relocs asked (q :: qs) := List.reduceOption_mem_iff.mp hr
      unfold answers at hr
      rcases List.mem_cons.mp hr with heq | hr
      · exact ⟨q, List.mem_cons_self, (answer_some heq.symm).1⟩
      · obtain ⟨q', hq', heq⟩ := ih (q :: asked) r (List.reduceOption_mem_iff.mpr hr)
        exact ⟨q', .tail q hq', heq⟩
  induction qs generalizing asked with
  | nil => simp [answers]
  | cons q qs ih =>
    obtain ⟨hfirst, hrest⟩ := List.pairwise_cons.mp hi
    unfold answers
    cases ha : answer relocs asked q with
    | none =>
      rw [List.reduceOption_cons_of_none]
      exact ih hrest
    | some x =>
      rw [List.reduceOption_cons_of_some]
      refine List.pairwise_cons.mpr ⟨fun r hr => ?_, ih hrest⟩
      obtain ⟨q', hq', heq⟩ := hbound qs (q :: asked) r hr
      rw [(answer_some ha).1, heq]
      exact hfirst q' hq'

/-- **The cursor delivers each relocation once, and at its address.** For relocations whose calls
do not overlap, all questions at increasing addresses are answered, no assertion fails, and the
cursor knows a call just after its second proxy was handled. -/
theorem cursor_exact (relocs : List Reloc) (qs : List Query) (hl : Listed relocs)
    (hd : Disjoint relocs) (hi : Increasing qs) :
    ∃ rel, SBTRelocation.asks {relocs := relocs} qs = .ok (answers relocs [] qs, rel) ∧
      (∀ p ∈ qs.zip (answers relocs [] qs), ∀ r, p.2 = some r → r.offset = p.1.addr) ∧
      ((answers relocs [] qs).reduceOption.Pairwise fun r r' => r.offset < r'.offset) ∧
      ∀ a, rel.isCall a = true ↔
        ∃ r ∈ relocs, r.type = .CALL ∧ r.offset + 4 = a ∧ lastHandled relocs qs = some r.lo := by
  obtain ⟨rel, hasks, hlast⟩ := asks_answers hl hd (.init relocs) hi (by simp)
  have hlast : rel.last = lastHandled relocs qs := hlast
  refine ⟨rel, hasks, fun p hp r heq => ?_, answers_increasing hi, fun a => ?_⟩
  · obtain ⟨asked, hp⟩ := mem_answers hp
    exact (answer_some (hp.symm.trans heq)).1
  · unfold SBTRelocation.isCall
    rw [hlast]
    constructor
    · intro hcall
      cases hx : lastHandled relocs qs with
      | none => simp [hx] at hcall
      | some x =>
        simp only [hx, Bool.and_eq_true, decide_eq_true_eq] at hcall
        obtain ⟨haddr, htype⟩ := hcall
        rcases remember_mem hx with hnone | ⟨p, hp, heq⟩
        · cases hnone
        · obtain ⟨asked, hp⟩ := mem_answers hp
          rcases (answer_some (hp.symm.trans heq)).2 with hmem | ⟨r, hr, hc, rfl | rfl⟩
          · exact absurd htype (hl.given x hmem).2
          · cases htype
          · exact ⟨r, hr, hc, haddr, rfl⟩
    · rintro ⟨r, -, -, rfl, hr⟩
      simp [hr, Reloc.lo]

/-- A call with its relaxations, and an upper half behind it. -/
def callAndHi : List Reloc :=
  [⟨0, .CALL, 0, some ⟨"f", 0, true⟩, none, 0⟩, ⟨0, .RELAX, 0, none, none, 0⟩,
    ⟨8, .HI20, 0, some ⟨"table", 16, false⟩, none, 0⟩, ⟨8, .RELAX, 0, none, none, 0⟩]

theorem call_delivered : ∃ rel,
    SBTRelocation.asks {relocs := callAndHi} [.handle 0, .handle 4, .skip 8, .handle 12] =
      .ok (answers callAndHi [] [.handle 0, .handle 4, .skip 8, .handle 12], rel) := by
  have hl : Listed callAndHi := ⟨by decide, by decide, by decide, by decide⟩
  have hd : Disjoint callAndHi := by unfold Disjoint; decide
  obtain ⟨rel, hasks, -⟩ := cursor_exact callAndHi [.handle 0, .handle 4, .skip 8, .handle 12] hl hd
    (by unfold Increasing; decide)
  exact ⟨rel, hasks⟩

/-- Two calls that overlap: the second proxy of the first one is in the way of those of the
other. -/
def overlapping : List Reloc :=
  [⟨0, .CALL, 0, some ⟨"f", 0, true⟩, none, 0⟩, ⟨2, .CALL, 0, some ⟨"g", 0, true⟩, none, 0⟩]

theorem overlapping_missed : Listed overlapping ∧ Increasing [.handle 0, .handle 2] ∧
    ∃ x rel, SBTRelocation.asks {relocs := overlapping} [.handle 0, .handle 2] =
    .ok ([some x, none], rel) ∧
      answers overlapping [] [.handle 0, .handle 2] ≠ [some x, none] := by
  refine ⟨⟨by decide, by decide, by decide, by decide⟩, by unfold Increasing; decide, _, _, rfl, ?_⟩
  decide

end RiscvSbt.Relocation
