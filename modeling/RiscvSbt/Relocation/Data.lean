import RiscvSbt.Block.Slots
import RiscvSbt.Context.Fresh
import RiscvSbt.Library.Overlay
import RiscvSbt.Relocation.Pairs
import RiscvSbt.Relocation.Resolve

/-! Relocations of a data section.

The shadow image of a data section is made before any section is translated. Its words are
gone through in order, with the relocations at hand: a relocation whose turn it is gives the
word at its offset, and all other words are copied. A word that refers to a label inside of a
function waits, as a placeholder, for the block of the label. -/
namespace RiscvSbt.Relocation
open Library Context Overlay
open Block (PendingReloc)

/-- `R_RISCV_32`. -/
def RType.R32 : RType := .other 1

/-- The data section that is relocated, and the sections of its file. -/
structure DataEnv where
  secName : String
  /-- The text sections, and under which number each is translated. -/
  text : String → Context.Section
  number : String → Nat
  /-- The sections of the shadow image. -/
  images : List String

/-- `Function::isFunction`, of a section that is given. -/
def isFunctionIn (sec : Context.Section) (s : State) (addr : Nat) : Bool :=
  (s.funcByAddr.get? addr).isSome || (sec.lookup addr).any Symbol.isValid

/-- `Function::getByAddr`, while no section is being translated. -/
def getIn (e : DataEnv) (s : State) (sec : Sec) (addr : Nat) : Except String (Nat × State) := do
  let (o, t) ← {s with sec := e.number sec.name}.getByAddr (e.text sec.name) addr
  pure (o, {t with sec := s.sec})

/-- `ShadowImage::getSection`, with an offset. -/
def inImage (e : DataEnv) (sec : Sec) (addr : Nat) : Except String Const :=
  if sec.name ∈ e.images then pure (.addr (.image sec.name) (BitVec.ofNat 32 addr))
  else throw "Section not found in ShadowImage!"

/-- The word of a relocation. -/
def processSectionReloc (e : DataEnv) (s : State) (r : Reloc) : Except String (Const × State) :=
  match r.sec, r.sym with
  | none, _ => throw "reloc->hasSec()"
  | some sec, none => do pure (← inImage e sec r.symPlus, s)
  | some sec, some sym =>
    if sec.isText then
      if isFunctionIn (e.text sec.name) s r.symPlus then do
        let (_, t) ← getIn e s sec r.symPlus
        match t.module.get? sym.name with
        | none => throw "Function symbol not found!"
        | some f => pure (.addr (.func f) 0, t)
      else do
        let pending ← Block.addPending s.blk.pending sym.addr.toNat ⟨sym.name,
          [(e.secName, r.offset)]⟩
        pure (.int 1234, {s with blk := {s.blk with pending := pending}})
    else do pure (← inImage e sec r.symPlus, s)

/-- The word at an address. There is none to copy where less than four bytes are left. -/
def relocateWord (e : DataEnv) (s : State) (addr : Nat) (raw : Option (BitVec 32))
    (relocs : List Reloc) : Except String (Const × List Reloc × State) :=
  let copy := match raw with
    | some w => pure (.int w, relocs, s)
    | none => throw "n - addr >= 4"
  match relocs with
  | [] => copy
  | r :: rest =>
    if addr = r.offset then
      if r.type = .R32 then do
        let (c, s) ← processSectionReloc e s r
        pure (c, rest, s)
      else throw "Unsupported relocation type"
    else copy

/-- The words from an address on. -/
def relocateSection (e : DataEnv) :
    Nat → List (BitVec 8) → List Reloc → State → Except String (List Const × State)
  | _, [], _, s => pure ([], s)
  | addr, b₀ :: b₁ :: b₂ :: b₃ :: bytes, relocs, s => do
    let (c, relocs, s) ← relocateWord e s addr (some (b₃ ++ b₂ ++ b₁ ++ b₀)) relocs
    let (cs, s) ← relocateSection e (addr + 4) bytes relocs s
    pure (c :: cs, s)
  | addr, _, relocs, s => do
    let (c, _, s) ← relocateWord e s addr none relocs
    pure ([c], s)

/-! ### What is to be in the image -/

/-- The words that wait, each with its label. -/
def waiting (pending : Map Nat PendingReloc) : List (Nat × String × Nat) :=
  pending.data.flatMap fun p => p.2.secs.map (p.1, ·)

/-- A function starts at an address of a section: a symbol says so, or it is known. -/
def Starts (e : DataEnv) (u : State) (sec : Sec) (a : Nat) : Prop :=
  (∃ sym ∈ (e.text sec.name).lookup a, sym.isValid = true) ∨
    ∃ o obj, u.objs o = some obj ∧ obj.sec = e.number sec.name ∧ obj.addr = a

/-- What a relocation denotes, by the tables that there are in the end: a place in the image of a
section, the function that starts at the symbol plus the addend, or the label there. The word of a
label waits for it, and may hold anything until then. -/
inductive Denoted (e : DataEnv) (u : State) (r : Reloc) : Const → Prop
  | data {sec : Sec} (sec_eq : r.sec = some sec) (data : sec.isText = false) :
      Denoted e u r (.addr (.image sec.name) (r.value + r.addend))
  | function {sec : Sec} {o : Nat} {obj : Obj} {f : Block.FnId} (sec_eq : r.sec = some sec)
      (text : sec.isText = true) (alive : u.objs o = some obj)
      (sec_of : obj.sec = e.number sec.name) (addr_of : obj.addr = r.symPlus)
      (fn : obj.f = some f) :
      Denoted e u r (.addr (.func f) 0)
  | label {sec : Sec} (sec_eq : r.sec = some sec) (text : sec.isText = true)
      (no : ¬ Starts e u sec r.symPlus)
      (waits : ∀ k, (k, e.secName, r.offset) ∈ waiting u.blk.pending ↔ k = r.symPlus) (c : Const) :
      Denoted e u r c

/-- No relocation is lost: wherever the host places things, the bytes at the offset of each hold
what it denotes, and all bytes of no relocation are those of the section. -/
def Relocated (e : DataEnv) (s : State) (bytes : List (BitVec 8)) (relocs : List Reloc) : Prop :=
  ∃ image u, relocateSection e 0 bytes relocs s = .ok (image, u) ∧
    (∀ r ∈ relocs, ∃ c, Denoted e u r c ∧ ∀ place, ∀ k < 4,
      byteAt (image.map (·.eval place)) (r.offset + k) = some (byte (c.eval place) k)) ∧
    ∀ place i, (∀ r ∈ relocs, ¬ (r.offset ≤ i ∧ i < r.offset + 4)) →
      byteAt (image.map (·.eval place)) i = bytes[i]?

/-- Relocations that the code can take one after the other, the tables being `u` in the end, with
their words. One of code has a symbol. Where a function starts at the symbol plus the addend, it is
the one that the host has under the symbol's own name. Else there is no addend, and no word waits
for another symbol at the address. -/
inductive Resolves (e : DataEnv) (u : State) : State → List Reloc → List Const → Prop
  | nil : Resolves e u u [] []
  | data {s : State} {r : Reloc} {relocs : List Reloc} {vals : List Const} {sec : Sec}
      (sec_eq : r.sec = some sec) (data : sec.isText = false) (shadowed : sec.name ∈ e.images)
      (rest : Resolves e u s relocs vals) :
      Resolves e u s (r :: relocs) (.addr (.image sec.name) (r.value + r.addend) :: vals)
  | function {s t : State} {r : Reloc} {relocs : List Reloc} {vals : List Const} {sec : Sec}
      {sym : Sym} {o o' : Nat} {obj : Obj} {f : Block.FnId} (sec_eq : r.sec = some sec)
      (text : sec.isText = true) (sym_eq : r.sym = some sym)
      (known : isFunctionIn (e.text sec.name) s r.symPlus = true)
      (get : getIn e s sec r.symPlus = .ok (o', t)) (own : t.module.get? sym.name = some f)
      (alive : u.objs o = some obj) (sec_of : obj.sec = e.number sec.name)
      (addr_of : obj.addr = r.symPlus) (fn : obj.f = some f) (rest : Resolves e u t relocs vals) :
      Resolves e u s (r :: relocs) (.addr (.func f) 0 :: vals)
  | label {s : State} {r : Reloc} {relocs : List Reloc} {vals : List Const} {sec : Sec} {sym : Sym}
      {pending : Map Nat PendingReloc} (sec_eq : r.sec = some sec) (text : sec.isText = true)
      (sym_eq : r.sym = some sym) (unknown : ¬ isFunctionIn (e.text sec.name) s r.symPlus = true)
      (addend : r.addend = 0) (no : ¬ Starts e u sec r.symPlus)
      (free : Block.addPending s.blk.pending sym.addr.toNat ⟨sym.name, [(e.secName, r.offset)]⟩ =
        .ok pending)
      (rest : Resolves e u {s with blk := {s.blk with pending := pending}} relocs vals) :
      Resolves e u s (r :: relocs) (.int 1234 :: vals)

def wordsOf : List (BitVec 8) → List (BitVec 32)
  | b₀ :: b₁ :: b₂ :: b₃ :: bytes => (b₃ ++ b₂ ++ b₁ ++ b₀) :: wordsOf bytes
  | _ => []

variable {e : DataEnv} {s t u : State} {bytes : List (BitVec 8)} {relocs : List Reloc}
  {vals : List Const} {addr m k : Nat} {r : Reloc} {sec : Sec} {sym : Sym} {c : Const}
  {res : Const × State} {name : String}

/-- An address in an image: the base of the section, plus the symbol, plus the addend. -/
theorem inImage_iff {c : Const} : inImage e sec r.symPlus = .ok c ↔
    sec.name ∈ e.images ∧ c = .addr (.image sec.name) (r.value + r.addend) := by
  unfold inImage
  rw [ofNat_symPlus]
  by_cases h : sec.name ∈ e.images
  · rw [if_pos h]
    exact ⟨fun hc => ⟨h, (Except.ok.inj hc).symm⟩, fun hc => congrArg Except.ok hc.2.symm⟩
  · rw [if_neg h]
    exact ⟨fun hc => (by cases hc), fun hc => absurd hc.1 h⟩

theorem process_data (hsec : r.sec = some sec) (hdata : sec.isText = false ∨ r.sym = none) :
    processSectionReloc e s r = .ok res ↔
      sec.name ∈ e.images ∧ res = (.addr (.image sec.name) (r.value + r.addend), s) := by
  have hpair : (do pure (← inImage e sec r.symPlus, s) : Except String (Const × State)) = .ok res ↔
      sec.name ∈ e.images ∧ res = (.addr (.image sec.name) (r.value + r.addend), s) := by
    constructor
    · intro h
      obtain ⟨c, hc, h⟩ := bind_ok h
      obtain ⟨hmem, rfl⟩ := inImage_iff.mp hc
      exact ⟨hmem, (Except.ok.inj h).symm⟩
    · rintro ⟨hmem, rfl⟩
      rw [inImage_iff.mpr ⟨hmem, rfl⟩]
      rfl
  unfold processSectionReloc
  cases hsym : r.sym with
  | none =>
    rw [hsec]
    exact hpair
  | some sym =>
    have htext : ¬ sec.isText = true := by
      rw [hdata.resolve_right (by rw [hsym]; exact Option.some_ne_none _)]
      exact Bool.false_ne_true
    simp only [hsec, if_neg htext]
    exact hpair

section Text
variable (hsec : r.sec = some sec) (htext : sec.isText = true) (hsym : r.sym = some sym)
include hsec htext hsym

theorem process_function (hf : isFunctionIn (e.text sec.name) s r.symPlus = true) :
    processSectionReloc e s r = .ok res ↔ ∃ o u f, getIn e s sec r.symPlus = .ok (o, u) ∧
      u.module.get? sym.name = some f ∧ res = (.addr (.func f) 0, u) := by
  unfold processSectionReloc
  simp only [hsec, hsym, if_pos htext, if_pos hf]
  constructor
  · intro h
    obtain ⟨⟨o, u⟩, hu, h⟩ := bind_ok h
    dsimp only at h
    split at h
    · cases h
    next f hget => exact ⟨o, u, f, hu, hget, (Except.ok.inj h).symm⟩
  · rintro ⟨o, u, f, hu, hget, rfl⟩
    simp only [hu, bind, Except.bind, hget]
    rfl

theorem process_label (hf : ¬ isFunctionIn (e.text sec.name) s r.symPlus = true) :
    processSectionReloc e s r = .ok res ↔ ∃ pending, Block.addPending s.blk.pending sym.addr.toNat
        ⟨sym.name, [(e.secName, r.offset)]⟩ = .ok pending ∧
      res = (.int 1234, {s with blk := {s.blk with pending := pending}}) := by
  unfold processSectionReloc
  simp only [hsec, hsym, if_pos htext, if_neg hf]
  constructor
  · intro h
    obtain ⟨pending, hp, h⟩ := bind_ok h
    exact ⟨pending, hp, (Except.ok.inj h).symm⟩
  · rintro ⟨pending, hp, rfl⟩
    rw [hp]
    rfl

end Text

theorem mem_waiting {pending : Map Nat PendingReloc} {w : String × Nat} :
    (k, w) ∈ waiting pending ↔ ∃ prel, pending.get? k = some prel ∧ w ∈ prel.secs := by
  simp only [waiting, List.mem_flatMap, List.mem_map, Map.get?_eq_some]
  constructor
  · rintro ⟨⟨k', prel⟩, hmem, w', hw, heq⟩
    obtain ⟨rfl, rfl⟩ := Prod.mk.inj heq
    exact ⟨prel, hmem, hw⟩
  · rintro ⟨prel, hmem, hw⟩
    exact ⟨(k, prel), hmem, w, hw, rfl⟩

/-- What waits after a word has been added. -/
theorem waiting_addPending {pending pending' : Map Nat PendingReloc} {w : String × Nat}
    (h : Block.addPending pending k ⟨name, [w]⟩ = .ok pending') (x : Nat × String × Nat) :
    x ∈ waiting pending' ↔ x ∈ waiting pending ∨ x = (k, w) := by
  obtain ⟨k', v⟩ := x
  have hpair : (k', v) = (k, w) ↔ k' = k ∧ v = w := Prod.mk_inj
  rw [mem_waiting, mem_waiting, hpair]
  unfold Block.addPending at h
  cases hget : pending.get? k with
  | none =>
    rw [hget] at h
    obtain rfl := Except.ok.inj h
    by_cases hk : k' = k
    · simp [hk, hget]
    · simp [Map.get?_upsert_of_ne hk, hk]
  | some old =>
    rw [hget] at h
    dsimp only [List.getLast?_singleton] at h
    split at h
    · obtain rfl := Except.ok.inj h
      by_cases hk : k' = k
      · simp [hk, hget]
      · simp [Map.get?_upsert_of_ne hk, hk]
    · cases h

theorem getIn_blk {o : Nat} (h : getIn e s sec k = .ok (o, t)) : t.blk = s.blk := by
  obtain ⟨⟨o', u⟩, hu, h⟩ := bind_ok h
  obtain ⟨-, rfl⟩ := Prod.mk.inj (Except.ok.inj h)
  exact (getByAddr_aside hu).blk

/-- **The word of one relocation.** It is plain, and no other word begins to wait. -/
theorem process_ok (h : processSectionReloc e s r = .ok (c, t)) : c.isPlain = true ∧
    (∀ x ∈ waiting s.blk.pending, x ∈ waiting t.blk.pending) ∧
    ∀ x ∈ waiting t.blk.pending, x ∈ waiting s.blk.pending ∨ x.2 = (e.secName, r.offset) := by
  cases hsec : r.sec with
  | none =>
    unfold processSectionReloc at h
    rw [hsec] at h
    cases h
  | some sec =>
    by_cases hdata : sec.isText = false ∨ r.sym = none
    · obtain ⟨-, heq⟩ := (process_data hsec hdata).mp h
      obtain ⟨rfl, rfl⟩ := Prod.mk.inj heq
      exact ⟨rfl, fun x hx => hx, fun x hx => .inl hx⟩
    · obtain ⟨htext, hsym⟩ := not_or.mp hdata
      obtain ⟨sym, hsym⟩ := Option.ne_none_iff_exists'.mp hsym
      have htext := Bool.eq_true_of_not_eq_false htext
      by_cases hf : isFunctionIn (e.text sec.name) s r.symPlus = true
      · obtain ⟨o, v, f, hget, -, heq⟩ := (process_function hsec htext hsym hf).mp h
        obtain ⟨rfl, rfl⟩ := Prod.mk.inj heq
        rw [getIn_blk hget]
        exact ⟨rfl, fun x hx => hx, fun x hx => .inl hx⟩
      · obtain ⟨pending, hadd, heq⟩ := (process_label hsec htext hsym hf).mp h
        obtain ⟨rfl, rfl⟩ := Prod.mk.inj heq
        have hmem := waiting_addPending hadd
        exact ⟨rfl, fun x hx => (hmem x).mpr (.inl hx),
          fun x hx => ((hmem x).mp hx).imp_right fun hx => by
          rw [hx]⟩

/-! ### The loop -/

/-- The words of relocations, one after the other. -/
def resolve (e : DataEnv) : List Reloc → State → Except String (List Const × State)
  | [], s => pure ([], s)
  | r :: relocs, s => do
    let (c, s) ← processSectionReloc e s r
    let (cs, s) ← resolve e relocs s
    pure (c :: cs, s)

theorem resolve_cons_iff : resolve e (r :: relocs) s = .ok (vals, t) ↔
    ∃ c u cs, processSectionReloc e s r = .ok (c, u) ∧ resolve e relocs u = .ok (cs, t) ∧
      vals = c :: cs := by
  constructor
  · intro h
    obtain ⟨⟨c, u⟩, hc, h⟩ := bind_ok h
    obtain ⟨⟨cs, t⟩, hcs, h⟩ := bind_ok h
    obtain ⟨rfl, rfl⟩ := Prod.mk.inj (Except.ok.inj h)
    exact ⟨c, u, cs, hc, hcs, rfl⟩
  · rintro ⟨c, u, cs, hc, hcs, rfl⟩
    simp only [resolve, hc, hcs, bind, Except.bind, pure, Except.pure]

/-- Only the words of the relocations begin to wait. -/
theorem resolve_waiting (h : resolve e relocs s = .ok (vals, t)) :
    (∀ x ∈ waiting s.blk.pending, x ∈ waiting t.blk.pending) ∧
    ∀ x ∈ waiting t.blk.pending,
      x ∈ waiting s.blk.pending ∨ ∃ r ∈ relocs, x.2 = (e.secName, r.offset) := by
  induction relocs generalizing s vals with
  | nil =>
    obtain ⟨rfl, rfl⟩ := Prod.mk.inj (Except.ok.inj h)
    exact ⟨fun x hx => hx, fun x hx => .inl hx⟩
  | cons r relocs ih =>
    obtain ⟨c, u, cs, hc, hcs, rfl⟩ := resolve_cons_iff.mp h
    obtain ⟨-, hsu, hus⟩ := process_ok hc
    obtain ⟨hut, htu⟩ := ih hcs
    refine ⟨fun x hx => hut x (hsu x hx), fun x hx => ?_⟩
    rcases htu x hx with hx | ⟨r', hr', heq⟩
    · exact (hus x hx).imp_right fun heq => ⟨r, List.mem_cons_self, heq⟩
    · exact .inr ⟨r', .tail r hr', heq⟩

/-- The relocations that the cursor meets in a section. -/
def taken (addr : Nat) (bytes : List (BitVec 8)) (relocs : List Reloc) : List Reloc :=
  met Reloc.offset addr (wordsOf bytes).length relocs

section Image
variable {firsts : List Reloc} (hfits : Fits Reloc.offset firsts)
  (hvals : vals.length = firsts.length)
include hfits hvals

end Image

/-! ### What is denoted -/

theorem eval_addr {b : Base} {x : BitVec 32} (hplain : c.isPlain = true)
    (h : ∀ place, (Const.addr b x).eval place = c.eval place) : c = .addr b x := by
  have hzero := h fun _ => 0
  cases c with
  | formula => cases hplain
  | int v =>
    have hone := h fun _ => 1
    simp only [Const.eval] at hzero hone
    bv_omega
  | addr b' y =>
    have hone := h fun d => if d = b then 1 else 0
    simp only [Const.eval, if_true] at hzero hone
    by_cases hb : b' = b
    · have hxy : x = y := by bv_omega
      rw [hb, hxy]
    · rw [if_neg hb] at hone
      bv_omega

namespace Denoted

/-- What is denoted depends on the value only. -/
theorem congr {c' : Const} (h : Denoted e u r c) (hplain : c'.isPlain = true)
    (heq : ∀ place, c.eval place = c'.eval place) : Denoted e u r c' := by
  cases h with
  | data sec_eq data =>
    rw [eval_addr hplain heq]
    exact .data sec_eq data
  | function sec_eq text alive sec_of addr_of fn =>
    rw [eval_addr hplain heq]
    exact .function sec_eq text alive sec_of addr_of fn
  | label sec_eq text no waits => exact .label sec_eq text no waits c'

end Denoted

/-- No word of the section waits at the offset of a relocation that is left. -/
def Silent (e : DataEnv) (s : State) (relocs : List Reloc) : Prop :=
  ∀ r ∈ relocs, ∀ k, (k, e.secName, r.offset) ∉ waiting s.blk.pending

namespace Silent

theorem process (h : Silent e s (r :: relocs)) (hfits : Fits Reloc.offset (r :: relocs))
    (hp : processSectionReloc e s r = .ok (c, t)) : Silent e t relocs := fun r' hr' k hk => by
  rcases (process_ok hp).2.2 _ hk with hk | heq
  · exact h r' (.tail r hr') k hk
  · have := hfits.behind r' hr'
    have := (Prod.mk.inj heq).2
    omega

/-- A word that does not wait when its turn has passed never will. -/
theorem behind (h : Silent e s (r :: relocs)) (hfits : Fits Reloc.offset (r :: relocs))
    (hsame : t.blk = s.blk) (hres : resolve e relocs t = .ok (vals, u)) (k : Nat) :
    (k, e.secName, r.offset) ∉ waiting u.blk.pending := fun hk => by
  rcases (resolve_waiting hres).2 _ hk with hk | ⟨r', hr', heq⟩
  · rw [hsame] at hk
    exact h r List.mem_cons_self k hk
  · have := hfits.behind r' hr'
    have := (Prod.mk.inj heq).2
    omega

/-- A word that has begun to wait has one label. -/
theorem held {pending : Map Nat PendingReloc} (h : Silent e s (r :: relocs))
    (hfits : Fits Reloc.offset (r :: relocs))
    (hadd : Block.addPending s.blk.pending m ⟨name, [(e.secName, r.offset)]⟩ = .ok pending)
    (hres : resolve e relocs {s with blk := {s.blk with pending := pending}} = .ok (vals, u))
    (k : Nat) :
    (k, e.secName, r.offset) ∈ waiting u.blk.pending ↔ k = m := by
  obtain ⟨hgrow, hold⟩ := resolve_waiting hres
  have hmem := waiting_addPending hadd
  constructor
  · intro hk
    rcases hold _ hk with hk | ⟨r', hr', heq⟩
    · rcases (hmem _).mp hk with hk | heq
      · exact absurd hk (h r List.mem_cons_self k)
      · exact (Prod.mk.inj heq).1
    · have := hfits.behind r' hr'
      have := (Prod.mk.inj heq).2
      omega
  · rintro rfl
    exact hgrow _ ((hmem _).mpr (.inr rfl))

end Silent

namespace Resolves

theorem resolve (h : Resolves e u s relocs vals) : resolve e relocs s = .ok (vals, u) := by
  induction h with
  | nil => rfl
  | data sec_eq data shadowed _ ih =>
    exact resolve_cons_iff.mpr ⟨_, _, _, (process_data sec_eq (.inl data)).mpr ⟨shadowed, rfl⟩,
      ih, rfl⟩
  | function sec_eq text sym_eq known get own _ _ _ _ _ ih =>
    exact resolve_cons_iff.mpr ⟨_, _, _,
      (process_function sec_eq text sym_eq known).mpr ⟨_, _, _, get, own, rfl⟩, ih, rfl⟩
  | label sec_eq text sym_eq unknown _ _ free _ ih =>
    exact resolve_cons_iff.mpr ⟨_, _, _, (process_label sec_eq text sym_eq unknown).mpr
      ⟨_, free, rfl⟩,
      ih, rfl⟩

end Resolves

def textSec : Sec := ⟨".text", true, 32⟩

def word (offset : Nat) (addend : BitVec 32) : Reloc :=
  ⟨offset, .R32, addend, some ⟨"names", 8, false⟩, some ⟨".rodata", false, 64⟩, 0⟩

def pointer (offset : Nat) (sym : Option Sym) (addend : BitVec 32) : Reloc :=
  ⟨offset, .R32, addend, sym, some textSec, 0⟩

end RiscvSbt.Relocation
