import RiscvSbt.Context.Distinguished
import RiscvSbt.Context.Words
import RiscvSbt.Relocation.Data

/-! Words of a data section that refer to code.

The word of a function is the LLVM function that the host has under the name of the relocation's
symbol. The word of another label waits under the bare address of the symbol: it gets the block of
the first instruction there that is translated, in whatever section. With a section symbol it is an
address in the shadow image of the text section. -/
namespace RiscvSbt.Relocation
open Library Context
open Block (PendingReloc Constant)

/-- A relocation of data refers to code of a section that is still to be translated. A function
that it makes known is told apart from the others. -/
structure Refers (p : Program) (e : DataEnv) (c : Config) (r : Reloc) (sec : Sec) : Prop where
  sec_eq : r.sec = some sec
  text : sec.isText = true
  idle : c.loop = none
  done : c.todo = []
  later : c.next ≤ e.number sec.name
  found : p.sections[e.number sec.name]? = some (e.text sec.name)
  fresh : ∀ k, (k, e.secName, r.offset) ∉ waiting c.s.blk.pending
  admits : isFunctionIn (e.text sec.name) c.s r.symPlus = true →
    Admits p c (e.number sec.name) r.symPlus

/-- After the relocation the rest of the image is built, which leaves its word alone, and then the
sections of the file are translated, that of the code among them. -/
structure Stored (p : Program) (e : DataEnv) (r : Reloc) (sec : Sec) (place : Base → BitVec 32)
    (w : Const) (c c₁ c₂ : Config) : Prop where
  built : Moves p (fun _ => False) (Admits p) c c₁
  idle : c₁.loop = none
  aligned : r.offset % 4 = 0
  word : (c₁.s.blk.sections e.secName)[r.offset / 4]? = some (.word (w.eval place))
  waits : ∀ k, (k, e.secName, r.offset) ∈ waiting c₁.s.blk.pending ↔
    (k, e.secName, r.offset) ∈ waiting c.s.blk.pending
  run : Within p (Serves p) (Admits p) c₁ c₂
  ended : c₂.loop = none
  done : c₂.todo = []
  translated : e.number sec.name < c₂.next

/-- What the code needs of a relocation: a symbol that is not that of a section. Where a function
starts at the symbol plus the addend, it is the symbol of that; else there is no addend, and no
word waits for another symbol at the address. -/
def Direct (e : DataEnv) (s : State) (r : Reloc) (sec : Sec) : Prop :=
  ∃ sym, r.sym = some sym ∧
    if isFunctionIn (e.text sec.name) s r.symPlus then
      sym.name = State.nameAt (e.text sec.name) r.symPlus
    else r.addend = 0 ∧ ∀ old, s.blk.pending.get? sym.addr.toNat = some old → old.sym = sym.name

variable {p : Program} {e : DataEnv} {s t : State} {r : Reloc} {sec : Sec} {sym : Sym}
  {c c₁ c₂ c' : Config} {place : Base → BitVec 32} {w : Const} {o k : Nat} {name : String}
  {v : BitVec 32}

theorem addPending_ok_iff {pending : Map Nat PendingReloc} {x : String × Nat} :
    (∃ pending', Block.addPending pending k ⟨name, [x]⟩ = .ok pending') ↔
      ∀ old, pending.get? k = some old → old.sym = name := by
  unfold Block.addPending
  cases hget : pending.get? k with
  | none => simp [pure, Except.pure]
  | some old =>
    by_cases hname : old.sym = name
    · simp [hname, pure, Except.pure]
    · simp [hname, throw, throwThe, MonadExceptOf.throw]

/-! ### The lookup -/

theorem Refers.fits (h : Refers p e c r sec)
    (hf : isFunctionIn (e.text sec.name) c.s r.symPlus = true) :
    Fits {c.s with sec := e.number sec.name}
      ⟨e.number sec.name, r.symPlus, State.nameAt (e.text sec.name) r.symPlus⟩ :=
  (h.admits hf).1 _ h.found

theorem getIn_looks (h : Refers p e c r sec) (hget : getIn e c.s sec r.symPlus = .ok (o, t)) :
    Looks p c (e.number sec.name) r.symPlus t := by
  obtain ⟨⟨o', u⟩, hu, hget⟩ := bind_ok hget
  obtain ⟨-, rfl⟩ := Prod.mk.inj (Except.ok.inj hget)
  exact .word h.idle h.done h.later h.found hu

section Lookup
variable (h : Refers p e c r sec) (hi : Identified c.s) (hm : Maps c.s)
  (hf : isFunctionIn (e.text sec.name) c.s r.symPlus = true)
include h hi hm hf

theorem getIn_ok : ∃ o t, getIn e c.s sec r.symPlus = .ok (o, t) := by
  have hi' : Identified {c.s with sec := e.number sec.name} := ⟨hi.byAddr, hi.byName, hi.fn⟩
  have hm' : Maps {c.s with sec := e.number sec.name} :=
    ⟨hm.fresh, hm.ids, hm.addr, hm.name, hm.fn, hm.inj⟩
  obtain ⟨o, u, hu⟩ := hi'.looks hm' (h.fits hf)
  refine ⟨o, {u with sec := c.s.sec}, ?_⟩
  unfold getIn
  rw [hu]
  rfl

/-- The function that is looked up is that of its own section, under the name of its symbol. -/
theorem getIn_place (hget : getIn e c.s sec r.symPlus = .ok (o, t)) :
    ∃ obj, t.objs o = some obj ∧ obj.place =
      ⟨e.number sec.name, r.symPlus, State.nameAt (e.text sec.name) r.symPlus⟩ := by
  have hi' : Identified {c.s with sec := e.number sec.name} := ⟨hi.byAddr, hi.byName, hi.fn⟩
  have hm' : Maps {c.s with sec := e.number sec.name} :=
    ⟨hm.fresh, hm.ids, hm.addr, hm.name, hm.fn, hm.inj⟩
  obtain ⟨⟨o', u⟩, hu, hget⟩ := bind_ok hget
  obtain ⟨rfl, rfl⟩ := Prod.mk.inj (Except.ok.inj hget)
  obtain ⟨obj, ho, hplace⟩ := hi'.finds hu hm' (h.fits hf)
  exact ⟨obj, ho, hplace⟩

end Lookup

/-! ### Afterwards -/

/-- What is known when all is translated. -/
structure Settled (p : Program) (c c₁ c₂ : Config) : Prop where
  maps : Maps c₂.s
  faithful : Faithful p c₂
  provided : Provided p c₂
  grown : Grown c.s c₂.s
  module : ∀ n f, c.s.module.get? n = some f → c₂.s.module.get? n = some f
  told : Told c₂.s.blk c₂.s.words
  supplied : Supplied p c₁.s.words.length c₁.s.blk.pending c₁.s.blk.sections c₂

namespace Stored
variable {pending : Map Nat PendingReloc} {sections : String → List Constant}

/-- A word that does not wait. -/
theorem kept (h : Stored p e r sec place w c c₁ c₂) (hs : Settled p c c₁ c₂)
    (hno : ∀ k, (k, e.secName, r.offset) ∉ waiting c.s.blk.pending) :
    (c₂.s.blk.sections e.secName)[r.offset / 4]? = some (.word (w.eval place)) := by
  have hnot : ∀ k prel, c₁.s.blk.pending.get? k = some prel → (e.secName, r.offset) ∉ prel.secs :=
    fun k prel hprel hx => hno k ((h.waits k).mp (mem_waiting.mpr ⟨prel, hprel, hx⟩))
  have hslot := hs.supplied.slot (k := 0) (x := (e.secName, r.offset)) hs.told h.aligned
    fun k' prel hprel hx => absurd hx (hnot k' prel hprel)
  exact (hslot.2 fun ⟨_, prel, hprel, hx⟩ => hnot _ prel hprel hx).trans h.word

/-- A word that waits for one address. -/
theorem served (h : Stored p e r sec place w c c₁ c₂) (hs : Settled p c c₁ c₂)
    (hone : ∀ k', (k', e.secName, r.offset) ∈ waiting c.s.blk.pending ↔ k' = k) :
    (Reached (c₂.s.since c₁.s.words.length) k → ∃ x b,
      (c₂.s.since c₁.s.words.length).find? (·.addr = k) = some x ∧ Opens c₂.s.blk b x ∧
        (c₂.s.blk.sections e.secName)[r.offset / 4]? = some (.blockAddress b)) ∧
    (¬ Reached (c₂.s.since c₁.s.words.length) k →
      (c₂.s.blk.sections e.secName)[r.offset / 4]? = some (.word (w.eval place))) := by
  have hslot := hs.supplied.slot (k := k) (x := (e.secName, r.offset)) hs.told h.aligned
    fun k' prel hprel hx => (hone k').mp ((h.waits k').mp (mem_waiting.mpr ⟨prel, hprel, hx⟩))
  have hwaits := mem_waiting.mp ((h.waits k).mpr ((hone k).mpr rfl))
  exact ⟨fun hk => hslot.1 hk hwaits, fun hno => (hslot.2 fun ⟨hk, _⟩ => hno hk).trans h.word⟩

end Stored

/-! ### The word in the end -/

theorem direct_function (hsym : r.sym = some sym)
    (hf : isFunctionIn (e.text sec.name) s r.symPlus = true) :
    Direct e s r sec ↔ sym.name = State.nameAt (e.text sec.name) r.symPlus := by
  unfold Direct
  simp only [hsym, Option.some.injEq, exists_eq_left', if_pos hf]

theorem direct_label (hsym : r.sym = some sym)
    (hf : ¬ isFunctionIn (e.text sec.name) s r.symPlus = true) :
    Direct e s r sec ↔ r.addend = 0 ∧ ∃ pending',
      Block.addPending s.blk.pending sym.addr.toNat ⟨sym.name, [(e.secName, r.offset)]⟩ =
        .ok pending' := by
  unfold Direct
  simp only [hsym, Option.some.injEq, exists_eq_left', if_neg hf, addPending_ok_iff]

/-- What the code needs is what it asks for. -/
theorem Direct.process (hd : Direct e c.s r sec) (h : Refers p e c r sec) (hfresh : Fresh p c)
    (hfaith : Faithful p c) (hprov : Provided p c) :
    ∃ w t, processSectionReloc e c.s r = .ok (w, t) := by
  obtain ⟨sym, hsym, -⟩ := id hd
  by_cases hf : isFunctionIn (e.text sec.name) c.s r.symPlus = true
  · obtain ⟨o, t, hget⟩ := getIn_ok h hfaith.ident hfresh.maps hf
    have hlooks := getIn_looks h hget
    obtain ⟨obj, ho, hplace⟩ := getIn_place h hfaith.ident hfresh.maps hf hget
    have hident := (hlooks.made hfaith.ident hfresh.maps (h.admits hf).1).1
    have hborn := (hprov.look hfaith hfresh hlooks (h.admits hf)).fn o obj ho
    obtain ⟨f, hfn⟩ := Option.isSome_iff_exists.mp hborn
    have hmod := hident.fn o obj f ho hfn
    have hname : obj.name = sym.name :=
      (congrArg Place.name hplace).trans ((direct_function hsym hf).mp hd).symm
    rw [hname] at hmod
    exact ⟨_, _, (process_function h.sec_eq h.text hsym hf).mpr ⟨o, t, f, hget, hmod, rfl⟩⟩
  · obtain ⟨-, pending', hadd⟩ := (direct_label hsym hf).mp hd
    exact ⟨_, _, (process_label h.sec_eq h.text hsym hf).mpr ⟨pending', hadd, rfl⟩⟩

end RiscvSbt.Relocation
