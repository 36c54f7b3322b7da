import Mathlib.Data.List.TakeWhile
import RiscvSbt.Relocation.Resolve

/-! The two ways to write a direct call.

`jal` makes a function up for any target. Of a pair of `auipc` and `jalr` the second one
remembers the value of the symbol and looks for a function that is known there; where none
is, it is an indirect call. -/
namespace RiscvSbt.Relocation
open Library Context

/-! ### Jumps -/

/-- What a jump is dispatched to. -/
inductive Action where
  | CALL (target : Nat)
  | JUMP (target : Nat)
  | ICALL
  | IJUMP
  | RETURN
  deriving DecidableEq, Repr

/-- `getImm`. -/
def getImm (e : Env) (s : State) (rel : SBTRelocation) (addr : Nat) (imm : BitVec 32) :
    Except String (Const × State × SBTRelocation) := do
  let (c, s, rel) ← handleRelocation e s rel addr
  pure (c.getD (.int imm), s, rel)

/-- `findFunction`. -/
def findFunction (s : State) : Option Const → Option Nat
  | some (.int v) => s.funcByAddr.get? v.toNat
  | _ => none

/-- Where an offset from an instruction leads, that has to be known. -/
def offsetAction (addr linkReg : Nat) : Const → Except String Action
  | .int v =>
    let target := (v + BitVec.ofNat 32 addr).toNat
    pure (if linkReg ≠ 0 then .CALL target else .JUMP target)
  | _ => throw "cast<ConstantInt>(target)"

/-- `translateBranch`, of a `jal`. -/
def jal (e : Env) (s : State) (rel : SBTRelocation) (addr : Nat) (linkReg : Nat)
    (imm : BitVec 32) : Except String (Action × State × SBTRelocation) := do
  let (jimm, s, rel) ← getImm e s rel addr imm
  pure (← offsetAction addr linkReg jimm, s, rel)

/-- `translateBranch`, of a `jalr`. -/
def jalr (e : Env) (s : State) (rel : SBTRelocation) (addr : Nat) (linkReg jregn : Nat)
    (imm : BitVec 32) : Except String (Action × State × SBTRelocation) := do
  let (jimm, s, rel) ← getImm e s rel addr imm
  if linkReg = 0 ∧ jregn = 1 ∧ jimm = .int 0 then pure (.RETURN, s, rel)
  else if jregn = 0 then throw "unexpected JALR with base register equal to zero!"
  else match if rel.isCall addr then findFunction s rel.lastSymVal else none with
    | some o => do pure (.CALL (← s.live o).addr, s, rel)
    | none => pure (if linkReg ≠ 0 then .ICALL else .IJUMP, s, rel)

/-- Calls are the only jumps that look for a function. -/
def dispatch (e : Env) (s : State) : Action → Except String State
  | .CALL target => s.handleCall e.sec target
  | _ => pure s

/-- The instruction at an address begins. -/
def atAddr (s : State) (addr : Nat) : State := {s with addr := addr}

/-- A `jal` is translated. -/
def callByJal (e : Env) (s : State) (rel : SBTRelocation) (addr linkReg : Nat)
    (imm : BitVec 32) : Except String State := do
  let (act, s, _) ← jal e (atAddr s addr) rel addr linkReg imm
  dispatch e s act

/-- An `auipc` and the `jalr` behind it are translated. -/
def callByPair (e : Env) (s : State) (rel : SBTRelocation) (addr linkReg jregn : Nat)
    (imm imm' : BitVec 32) : Except String State := do
  let (_, s, rel) ← getImm e (atAddr s addr) rel addr imm
  let (act, s, _) ← jalr e (atAddr s (addr + 4)) rel (addr + 4) linkReg jregn imm'
  dispatch e s act

variable {e : Env} {s t u : State} {r : Reloc} {v : Const} {last : Option Const}
  {rel rel' : SBTRelocation} {addr o : Nat} {obj : Obj} {f : Block.FnId}

/-! ### The cursor -/

/-- The next relocation is one of the instruction at `addr` and of the one behind it, if
that is its other half. -/
structure Marked (rel : SBTRelocation) (addr : Nat) (r : Reloc) : Prop where
  relocs : ∃ rest, SBTRelocation.behind addr rel.relocs = r :: rest ∧
    ∀ x ∈ rest, x.type ≠ .RELAX → addr + 4 < x.offset
  offset : r.offset = addr
  proxies : ∀ x ∈ rel.proxyRelocs, x.offset < addr

namespace SBTRelocation

/-- The relocations are past an address: what is left lies behind it. -/
def Past (addr : Nat) (relocs : List Reloc) : Prop :=
  ∀ x rest, relocs = x :: rest → x.type ≠ .RELAX ∧ addr < x.offset

theorem skipRelax_past {rest : List Reloc}
    (h : ∀ x ∈ rest, x.type ≠ .RELAX → addr < x.offset) : Past addr (skipRelax rest) := by
  intro x tail heq
  have hne : x.type ≠ .RELAX := by
    have hhead := List.head?_dropWhile_not (fun r : Reloc => decide (r.type = .RELAX)) rest
    rw [show rest.dropWhile _ = _ from heq] at hhead
    simpa using hhead
  have hmem : x ∈ rest := (List.dropWhile_sublist _).subset (heq ▸ List.mem_cons_self)
  exact ⟨hne, h x hmem hne⟩

theorem behind_past {relocs : List Reloc} (h : Past addr relocs) {a : Nat} (ha : a ≤ addr) :
    behind a relocs = relocs := by
  cases relocs with
  | nil => rfl
  | cons x rest =>
    obtain ⟨hne, hlt⟩ := h x rest rfl
    have hle : ¬ x.offset < a := by omega
    simp [behind, hne, hle]

theorem take_past {relocs : List Reloc} (h : Past addr relocs) {a : Nat} (ha : a ≤ addr) :
    take a relocs = .ok none := by
  cases relocs with
  | nil => rfl
  | cons x rest =>
    have hne : x.offset ≠ a := by
      have := (h x rest rfl).2
      omega
    exact if_pos hne

theorem take_self {rest : List Reloc} (hoff : r.offset = addr) (h : Past addr (skipRelax rest)) :
    take addr (r :: rest) = .ok (some (r, skipRelax rest)) := by
  refine (if_neg (not_not_intro hoff)).trans ?_
  generalize skipRelax rest = next at h
  cases next with
  | nil => rfl
  | cons x tail =>
    have hne : x.offset ≠ addr := by
      have := (h x tail rfl).2
      omega
    exact if_neg hne

theorem dropWhile_lt {l : List Reloc} (h : ∀ x ∈ l, x.offset < addr) :
    l.dropWhile (·.offset < addr) = [] :=
  List.dropWhile_eq_nil_iff.mpr fun x hx => decide_eq_true (h x hx)

end SBTRelocation

namespace Marked
open SBTRelocation

theorem getReloc (h : Marked rel addr r) : ∃ rest, Past (addr + 4) rest ∧
    rel.getReloc addr = .ok (some r, {rel with relocs := rest, proxyRelocs := []}) := by
  obtain ⟨rest, hb, hrest⟩ := h.relocs
  have hpast : Past (addr + 4) (skipRelax rest) := skipRelax_past hrest
  have hpast' : Past addr (skipRelax rest) := fun x tail heq => by
    have := hpast x tail heq
    exact ⟨this.1, by omega⟩
  refine ⟨skipRelax rest, hpast, ?_⟩
  unfold SBTRelocation.getReloc
  simp only [hb, take_self h.offset hpast', dropWhile_lt h.proxies]
  rfl

/-- A `jal` is handled by its relocation. -/
theorem next_self (h : Marked rel addr r) (hr : r.type ≠ .CALL) :
    ∃ rel', rel.next addr = .ok (some r, rel') := by
  obtain ⟨rest, -, hget⟩ := h.getReloc
  refine ⟨{rel with relocs := rest, proxyRelocs := []}, ?_⟩
  unfold SBTRelocation.next
  simp only [hget]
  exact if_neg hr

/-- The halves of a call are handled by the two proxies. -/
theorem next_call (h : Marked rel addr r) (hr : r.type = .CALL) :
    ∃ rel', rel.next addr = .ok (some {r with type := .PROXY_CALL_HI}, rel') ∧
      ∀ last v, ∃ rel'', SBTRelocation.next {rel' with last := last, lastSymVal := v} (addr + 4) =
        .ok (some {r with type := .PROXY_CALL_LO, hiPC := addr, offset := addr + 4}, rel'') := by
  obtain ⟨rest, hpast, hget⟩ := h.getReloc
  have hoff := h.offset
  refine ⟨{rel with
    relocs := rest
    proxyRelocs := [{r with type := .PROXY_CALL_LO, hiPC := r.offset, offset := r.offset + 4}]}, ?_,
    fun last v => ?_⟩
  · unfold SBTRelocation.next
    simp only [hget]
    refine (if_pos hr).trans ?_
    unfold SBTRelocation.getReloc
    have hb := behind_past hpast (show addr ≤ addr + 4 by omega)
    have ht := take_past hpast (show addr ≤ addr + 4 by omega)
    simp only [addProxyReloc, hb, ht, List.nil_append, hoff]
    simp [bind, Except.bind, pure, Except.pure, take, skipRelax]
  · refine ⟨{rel with relocs := rest, proxyRelocs := [], last := last, lastSymVal := v}, ?_⟩
    unfold SBTRelocation.next SBTRelocation.getReloc
    have hb := behind_past hpast (le_refl _)
    have ht := take_past hpast (le_refl _)
    simp only [hb, ht, hoff]
    simp [bind, Except.bind, pure, Except.pure, take, skipRelax]

end Marked

/-! ### The value of a text symbol -/

/-- The value of a symbol of the text section, looked for at `saddr`. -/
def localValue (e : Env) (s : State) (type : RType) (saddr : Nat) :
    Except String (Const × Option Const × State) :=
  if isFunction e s saddr then do
    let (o, s) ← funcAt e s saddr
    let (c, last) ← funcValue e s type saddr (← s.live o).name
    pure (c, last, s)
  else pure (.int (BitVec.ofNat 32 saddr), none, s)

/-- A relocation that refers to the text section. -/
structure InText (r : Reloc) : Prop where
  sec : ∃ sec, r.sec = some sec ∧ sec.isText = true

namespace InText

theorem isExternal (h : InText r) : r.isExternal = false := by
  obtain ⟨sec, hsec, -⟩ := h.sec
  unfold Reloc.isExternal
  cases r.sym with
  | none => rfl
  | some sym => simp [hsec]

theorem isLocalFunction (h : InText r) : r.isLocalFunction = true := by
  obtain ⟨sec, hsec, htext⟩ := h.sec
  simp [Reloc.isLocalFunction, hsec, htext]

theorem symValue_eq (h : InText r) :
    symValue e s r = validate e r >>= fun _ => localValue e s r.type r.saddr := by
  unfold symValue
  refine congrArg (validate e r >>= ·) (funext fun _ => ?_)
  rw [h.isExternal, if_neg Bool.false_ne_true, if_pos h.isLocalFunction]
  rfl

end InText

/-- What a relocation at `addr` is handled to. -/
theorem handleRelocation_eq (hn : rel.next addr = .ok (some r, rel')) (hk : known r.type = true) :
    handleRelocation e s rel addr = (do
      let (c, last, s) ← symValue e s r
      pure (some (relfn r.type (pcOf r addr) c), s,
        {rel' with last := some r, lastSymVal := some (last.getD c)})) := by
  unfold handleRelocation
  rw [hn]
  show (if !known r.type then _ else _) = _
  rw [hk]
  rfl

/-! ### Looking the function up -/

theorem live_eq (hobj : s.objs o = some obj) : s.live o = .ok obj := by
  unfold State.live
  rw [hobj]
  rfl

theorem getByAddr_found {sec : Section} {a : Nat} (hget : s.funcByAddr.get? a = some o) :
    s.getByAddr sec a = .ok (o, s) := by
  unfold State.getByAddr
  rw [hget]
  rfl

theorem handleCall_fn {sec : Section} {a : Nat} (hget : s.funcByAddr.get? a = some o)
    (hobj : s.objs o = some obj) (h : s.handleCall sec a = .ok t) : ∃ f, obj.f = some f := by
  unfold State.handleCall at h
  simp only [getByAddr_found hget, live_eq hobj, bind, Except.bind] at h
  cases hf : obj.f with
  | none =>
    rw [hf] at h
    cases h
  | some f => exact ⟨f, rfl⟩

theorem handleCall_found {sec : Section} {a : Nat} (hget : s.funcByAddr.get? a = some o)
    (hobj : s.objs o = some obj) (hf : obj.f = some f) :
    s.handleCall sec a = .ok {s with calls := s.calls ++ [(a, f)]} := by
  unfold State.handleCall
  simp only [getByAddr_found hget, live_eq hobj, hf, bind, Except.bind]
  rfl

theorem funcAt_calls {saddr : Nat} (h : funcAt e s saddr = .ok (o, t)) : t.calls = s.calls := by
  unfold funcAt at h
  split at h
  next =>
    obtain ⟨-, rfl⟩ := Prod.mk.inj (Except.ok.inj h)
    rfl
  next =>
    split at h
    next => cases h
    next => exact getByAddr_calls h

theorem localValue_calls {type : RType} {saddr : Nat}
    (h : localValue e s type saddr = .ok (v, last, t)) : t.calls = s.calls := by
  unfold localValue at h
  split at h
  next =>
    obtain ⟨⟨o, u⟩, hu, h⟩ := bind_ok h
    obtain ⟨obj, -, h⟩ := bind_ok h
    obtain ⟨⟨c, l⟩, -, h⟩ := bind_ok h
    obtain ⟨-, h⟩ := Prod.mk.inj (Except.ok.inj h)
    obtain ⟨-, rfl⟩ := Prod.mk.inj h
    exact funcAt_calls hu
  next =>
    obtain ⟨-, h⟩ := Prod.mk.inj (Except.ok.inj h)
    obtain ⟨-, rfl⟩ := Prod.mk.inj h
    rfl

theorem funcValue_JAL {saddr : Nat} {name : String}
    (h : funcValue e s .JAL saddr name = .ok (v, last)) :
    v = .int (BitVec.ofNat 32 saddr) ∧ ∀ type, ∃ c l, funcValue e s type saddr name = .ok (c, l) ∧
      l.getD c = .int (BitVec.ofNat 32 saddr) := by
  unfold funcValue at h ⊢
  by_cases hu : e.useICallerForIIntFuncs = true
  · simp only [if_pos hu] at h ⊢
    exact ⟨(congrArg Prod.fst (Except.ok.inj h)).symm, fun type => ⟨_, _, rfl, rfl⟩⟩
  · simp only [if_neg hu] at h ⊢
    cases hf : s.module.get? name with
    | none => rw [hf] at h; cases h
    | some f =>
      rw [hf] at h
      refine ⟨(congrArg Prod.fst (Except.ok.inj h)).symm, fun type => ?_⟩
      by_cases ht : type = .JAL
      · exact ⟨_, _, if_pos ht, rfl⟩
      · exact ⟨_, _, if_neg ht, rfl⟩

/-- What a `jal` to a known function finds, and what every other relocation then finds. -/
theorem localValue_known (hm : Maps s) {saddr : Nat} (hk : isFunction e s saddr = true)
    (h : localValue e s .JAL saddr = .ok (v, last, t)) :
    v = .int (BitVec.ofNat 32 saddr) ∧ Maps t ∧
      ∃ o obj, t.funcByAddr.get? saddr = some o ∧ t.objs o = some obj ∧
        (∀ type, ∃ c l, localValue e s type saddr = .ok (c, l, t) ∧
          l.getD c = .int (BitVec.ofNat 32 saddr)) ∧
        ∀ type a, ∃ c l, localValue e (atAddr t a) type saddr = .ok (c, l, atAddr t a) ∧
          l.getD c = .int (BitVec.ofNat 32 saddr) := by
  unfold localValue at h
  rw [if_pos hk] at h
  obtain ⟨⟨o, u⟩, hu, h⟩ := bind_ok h
  obtain ⟨obj, hobj, h⟩ := bind_ok h
  obtain ⟨⟨c, l⟩, hc, h⟩ := bind_ok h
  obtain ⟨hcv, hlt⟩ := Prod.mk.inj (Except.ok.inj h)
  obtain ⟨-, hut⟩ := Prod.mk.inj hlt
  subst hcv hut
  obtain ⟨hmu, hget⟩ := funcAt_ok hm hu
  obtain ⟨hv, htypes⟩ := funcValue_JAL hc
  refine ⟨hv, hmu, o, obj, hget, live_ok hobj, fun type => ?_, fun type a => ?_⟩
  · obtain ⟨c', l', hc', hd⟩ := htypes type
    refine ⟨c', l', ?_, hd⟩
    unfold localValue
    rw [if_pos hk, hu]
    show (State.live _ o >>= _) = _
    rw [hobj]
    show (funcValue e _ type saddr obj.name >>= _) = _
    rw [hc']
    rfl
  · obtain ⟨c', l', hc', hd⟩ := htypes type
    refine ⟨c', l', ?_, hd⟩
    have hk' : isFunction e (atAddr u a) saddr = true := by
      unfold isFunction atAddr
      rw [hget]
      rfl
    have hat : funcAt e (atAddr u a) saddr = .ok (o, atAddr u a) := by
      unfold funcAt atAddr
      rw [hget]
      rfl
    unfold localValue
    rw [if_pos hk', hat]
    show (State.live (atAddr u a) o >>= _) = _
    rw [show State.live (atAddr u a) o = .ok obj from hobj]
    show (funcValue e (atAddr u a) type saddr obj.name >>= _) = _
    rw [show funcValue e (atAddr u a) type saddr obj.name = .ok (c', l') from hc']
    rfl

theorem localValue_unknown {type : RType} {saddr : Nat} (hk : isFunction e s saddr = false) :
    localValue e s type saddr = .ok (.int (BitVec.ofNat 32 saddr), none, s) := by
  unfold localValue
  rw [hk]
  rfl

/-! ### Both ways -/

/-- A `jal` through its relocation. -/
theorem callByJal_eq {linkReg : Nat} {imm : BitVec 32} (htext : InText r)
    (hmark : Marked rel addr {r with type := .JAL, offset := addr}) :
    callByJal e s rel addr linkReg imm = (do
      validate e r
      let (v, _, u) ← localValue e (atAddr s addr) .JAL r.saddr
      dispatch e u (← offsetAction addr linkReg (relfn .JAL (BitVec.ofNat 32 addr) v))) := by
  obtain ⟨rel', hnext⟩ := hmark.next_self nofun
  have htext' : InText {r with type := .JAL, offset := addr} := ⟨htext.sec⟩
  unfold callByJal jal getImm
  rw [handleRelocation_eq hnext rfl, htext'.symValue_eq]
  show ((((validate e r >>= fun _ => localValue e (atAddr s addr) .JAL r.saddr) >>= _) >>= _) >>= _)
    >>= _ = _
  cases validate e r with
  | error err => rfl
  | ok _ =>
    cases localValue e (atAddr s addr) .JAL r.saddr with
    | error err => rfl
    | ok val =>
      obtain ⟨v, last, u⟩ := val
      show (offsetAction addr linkReg (relfn .JAL (BitVec.ofNat 32 addr) v) >>= _) >>= _ =
        offsetAction addr linkReg (relfn .JAL (BitVec.ofNat 32 addr) v) >>= _
      cases offsetAction addr linkReg (relfn .JAL (BitVec.ofNat 32 addr) v) with
      | error err => rfl
      | ok act => rfl

/-- The pair through the proxies of its relocation. -/
theorem callByPair_eq {linkReg jregn : Nat} {imm imm' : BitVec 32} {c c' : Const}
    {l l' : Option Const} (htext : InText r) (hok : validate e r = .ok ()) (hreg : jregn ≠ 0)
    (hmark : Marked rel addr {r with type := .CALL, offset := addr})
    (hhi : localValue e (atAddr s addr) .PROXY_CALL_HI r.saddr = .ok (c, l, u))
    (hlo : localValue e (atAddr u (addr + 4)) .PROXY_CALL_LO r.saddr = .ok (c', l', t)) :
    callByPair e s rel addr linkReg jregn imm imm' =
      if linkReg = 0 ∧ jregn = 1 ∧ relfn .PROXY_CALL_LO (BitVec.ofNat 32 addr) c' =
        .int 0 then .ok t
      else (findFunction t (some (l'.getD c'))).elim (.ok t) fun o =>
        t.live o >>= fun obj => t.handleCall e.sec obj.addr := by
  obtain ⟨rel', hnext, hnext'⟩ := hmark.next_call rfl
  have htext₁ : InText {r with type := .PROXY_CALL_HI, offset := addr} := ⟨htext.sec⟩
  have htext₂ : InText {r with type := .PROXY_CALL_LO, hiPC := addr, offset := addr + 4} :=
    ⟨htext.sec⟩
  obtain ⟨rel'', hnext'⟩ := hnext' (some {r with type := .PROXY_CALL_HI, offset := addr})
    (some (l.getD c))
  have hsym₁ : symValue e (atAddr s addr) {r with type := .PROXY_CALL_HI, offset := addr} =
      .ok (c, l, u) := by
    rw [htext₁.symValue_eq]
    show (validate e r >>= fun _ => localValue e (atAddr s addr) .PROXY_CALL_HI r.saddr) = _
    rw [hok, hhi]
    rfl
  have hsym₂ : symValue e (atAddr u (addr + 4))
      {r with type := .PROXY_CALL_LO, hiPC := addr, offset := addr + 4} = .ok (c', l', t) := by
    rw [htext₂.symValue_eq]
    show (validate e r >>= fun _ =>
      localValue e (atAddr u (addr + 4)) .PROXY_CALL_LO r.saddr) = _
    rw [hok, hlo]
    rfl
  unfold callByPair getImm
  rw [handleRelocation_eq hnext rfl, hsym₁]
  show (jalr e (atAddr u (addr + 4)) {rel' with
    last := some {r with type := .PROXY_CALL_HI, offset := addr}
    lastSymVal := some (l.getD c)} (addr + 4) linkReg jregn imm' >>= _) = _
  unfold jalr getImm
  rw [handleRelocation_eq hnext' rfl, hsym₂]
  show ((if linkReg = 0 ∧ jregn = 1 ∧ relfn .PROXY_CALL_LO (BitVec.ofNat 32 addr) c' = .int 0 then _
    else _) >>= _) = _
  by_cases hret : linkReg = 0 ∧ jregn = 1 ∧
      relfn .PROXY_CALL_LO (BitVec.ofNat 32 addr) c' = .int 0
  · rw [if_pos hret, if_pos hret]
    rfl
  · rw [if_neg hret, if_neg hret, if_neg hreg]
    have hcall : SBTRelocation.isCall {rel'' with
        last := some {r with type := .PROXY_CALL_LO, hiPC := addr, offset := addr + 4}
        lastSymVal := some (l'.getD c')} (addr + 4) = true := by
      simp [SBTRelocation.isCall]
    rw [hcall, if_pos rfl]
    cases findFunction t (some (l'.getD c')) with
    | none =>
      show dispatch e t (if linkReg ≠ 0 then .ICALL else .IJUMP) = .ok t
      split <;> rfl
    | some o =>
      show ((t.live o >>= _) >>= _) = t.live o >>= _
      cases t.live o with
      | error err => rfl
      | ok obj => rfl

/-- The code made for both emits one and the same call, behind the calls so far. -/
def SameCall (s t₁ t₂ : State) : Prop :=
  ∃ c, t₁.calls = s.calls ++ [c] ∧ t₂.calls = s.calls ++ [c]

theorem append_ne_self {α : Type} (l : List α) (a : α) : l ≠ l ++ [a] := by
  simp

/-- **When the two encodings of a call agree**: a `jal` of a target in the text section that
is translated, and the pair of `auipc` and `jalr` in its place, with whatever relocations and
calls before. They call one function just if they link, and the function is known or is
marked by a function symbol or a global one. -/
theorem calls_agree (e : Env) (s t : State) (r : Reloc) (rel₁ rel₂ : SBTRelocation)
    (addr linkReg jregn : Nat) (imm imm₁ imm₂ : BitVec 32) (hm : Maps s) (htext : InText r)
    (hlt : r.saddr < 2 ^ 32) (hreg : jregn ≠ 0)
    (h₁ : Marked rel₁ addr {r with type := .JAL, offset := addr})
    (h₂ : Marked rel₂ addr {r with type := .CALL, offset := addr})
    (hjal : callByJal e s rel₁ addr linkReg imm = .ok t) :
    (∃ u, callByPair e s rel₂ addr linkReg jregn imm₁ imm₂ = .ok u ∧ SameCall s t u) ↔
      linkReg ≠ 0 ∧ isFunction e s r.saddr = true := by
  rw [callByJal_eq htext h₁] at hjal
  obtain ⟨⟨⟩, hok, hjal⟩ := bind_ok hjal
  obtain ⟨⟨v, last, w⟩, hloc, hjal⟩ := bind_ok hjal
  obtain ⟨act, hact, hdisp⟩ := bind_ok hjal
  have hm' : Maps (atAddr s addr) := ⟨hm.fresh, hm.ids, hm.addr, hm.name, hm.fn, hm.inj⟩
  have hcalls : w.calls = (atAddr s addr).calls := localValue_calls hloc
  have htarget : (BitVec.ofNat 32 r.saddr - BitVec.ofNat 32 addr + BitVec.ofNat 32 addr).toNat =
      r.saddr := by
    rw [BitVec.sub_add_cancel, BitVec.toNat_ofNat, Nat.mod_eq_of_lt hlt]
  have hoff : ∀ {act}, offsetAction addr linkReg
      (relfn .JAL (BitVec.ofNat 32 addr) (.int (BitVec.ofNat 32 r.saddr))) = .ok act →
      act = if linkReg ≠ 0 then .CALL r.saddr else .JUMP r.saddr := by
    intro act h
    have hcalc : (formula .JAL (BitVec.ofNat 32 addr) (BitVec.ofNat 32 r.saddr) +
        BitVec.ofNat 32 addr).toNat = r.saddr := htarget
    unfold relfn offsetAction at h
    simp only [hcalc] at h
    exact (Except.ok.inj h).symm
  cases hk : isFunction e s r.saddr with
  | false =>
    refine iff_of_false ?_ (fun h => Bool.false_ne_true h.2)
    rintro ⟨u, hu, c, -, hc⟩
    rw [callByPair_eq htext hok hreg h₂ (localValue_unknown hk) (localValue_unknown hk)] at hu
    have hnone : findFunction (atAddr (atAddr s addr) (addr + 4))
        (some (Const.int (BitVec.ofNat 32 r.saddr))) = none := by
      show s.funcByAddr.get? (BitVec.ofNat 32 r.saddr).toNat = none
      rw [BitVec.toNat_ofNat, Nat.mod_eq_of_lt hlt]
      have hor := Bool.or_eq_false_iff.mp hk
      exact Option.not_isSome_iff_eq_none.mp (by rw [hor.1]; exact Bool.false_ne_true)
    rw [Option.getD_none, hnone, Option.elim_none, ite_self] at hu
    obtain rfl := Except.ok.inj hu
    exact append_ne_self _ _ hc
  | true =>
    obtain ⟨rfl, hmw, o, obj, hget, hobj, hhi, hlo⟩ := localValue_known hm' hk hloc
    obtain rfl := hoff hact
    by_cases hl : linkReg = 0
    · -- A jump calls nothing.
      refine iff_of_false ?_ (fun h => h.1 hl)
      rintro ⟨u, -, c, hc, -⟩
      rw [if_neg (not_not_intro hl)] at hdisp
      obtain rfl := Except.ok.inj hdisp
      rw [hcalls] at hc
      exact append_ne_self _ _ hc
    · refine iff_of_true ?_ ⟨hl, rfl⟩
      rw [if_pos hl] at hdisp
      obtain ⟨c, l, hc, -⟩ := hhi .PROXY_CALL_HI
      obtain ⟨c', l', hc', hd⟩ := hlo .PROXY_CALL_LO (addr + 4)
      have haddr : obj.addr = r.saddr := hmw.addr r.saddr o obj hget hobj
      obtain ⟨f, hf⟩ := handleCall_fn hget hobj hdisp
      obtain rfl := Except.ok.inj ((handleCall_found hget hobj hf).symm.trans hdisp)
      have hfind : findFunction (atAddr w (addr + 4)) (some (l'.getD c')) = some o := by
        rw [hd]
        show w.funcByAddr.get? (BitVec.ofNat 32 r.saddr).toNat = some o
        rwa [BitVec.toNat_ofNat, Nat.mod_eq_of_lt hlt]
      rw [callByPair_eq htext hok hreg h₂ hc hc', if_neg fun h => hl h.1, hfind]
      have hlive : (atAddr w (addr + 4)).live o = .ok obj := live_eq hobj
      refine ⟨{w with addr := addr + 4, calls := w.calls ++ [(r.saddr, f)]}, ?_,
        (r.saddr, f), ?_, ?_⟩
      · show ((atAddr w (addr + 4)).live o >>= _) = _
        rw [hlive]
        show (atAddr w (addr + 4)).handleCall e.sec obj.addr = _
        rw [haddr]
        exact handleCall_found (s := atAddr w (addr + 4)) hget hobj hf
      · exact congrArg (· ++ [(r.saddr, f)]) hcalls
      · exact congrArg (· ++ [(r.saddr, f)]) hcalls

/-- A section with a label behind a function. -/
def labelEnv : Env where
  secName := ".text"
  sec := {
    size := 16
    symbols := [⟨"g", 4, true, false⟩, ⟨".L1", 8, false, false⟩]
    inst := fun _ => .straight 0 }
  import_ _ := .ok .data

def labelReloc : Reloc := ⟨0, .JAL, 0, some ⟨".L1", 8, false⟩, some ⟨".text", true, 16⟩, 0⟩

def functionReloc : Reloc := ⟨0, .JAL, 0, some ⟨"g", 4, true⟩, some ⟨".text", true, 16⟩, 0⟩

/-- A `jal` to the label calls a function made up for it, the pair makes an indirect call. -/
theorem label_called_once : ∃ t u,
    callByJal labelEnv noFunctions {relocs := [labelReloc]} 0 1 0 = .ok t ∧
      callByPair labelEnv noFunctions {relocs := [{labelReloc with type := .CALL}]} 0 1 1 0 0 =
        .ok u ∧ t.calls = [(8, 0)] ∧ u.calls = [] ∧ ¬ SameCall noFunctions t u := by
  refine ⟨_, _, rfl, rfl, rfl, rfl, ?_⟩
  rintro ⟨c, -, hc⟩
  exact absurd hc (append_ne_self [] c)

theorem marked_of_single (r : Reloc) (hr : r.type ≠ .RELAX) :
    Marked {relocs := [r]} r.offset r where
  relocs := ⟨[], by simp [SBTRelocation.behind, hr], nofun⟩
  offset := rfl
  proxies := nofun

theorem function_called : ∃ t u,
    callByJal labelEnv noFunctions {relocs := [functionReloc]} 0 1 0 = .ok t ∧
      callByPair labelEnv noFunctions {relocs := [{functionReloc with type := .CALL}]}
        0 1 1 0 0 = .ok u ∧ SameCall noFunctions t u := by
  obtain ⟨u, hu, hsame⟩ := (calls_agree labelEnv noFunctions _ functionReloc
    {relocs := [functionReloc]} {relocs := [{functionReloc with type := .CALL}]} 0 1 1 0 0 0
    noFunctions_maps ⟨_, rfl, rfl⟩ (by decide) (by decide)
    (marked_of_single functionReloc nofun)
    (marked_of_single {functionReloc with type := .CALL} nofun) rfl).mpr ⟨by decide, by decide⟩
  exact ⟨_, u, rfl, hu, hsame⟩

end RiscvSbt.Relocation
