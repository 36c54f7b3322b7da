import RiscvSbt.Context.Targets
import RiscvSbt.Dispatch.Imports
import RiscvSbt.Relocation.Resolve

/-! What the value of a relocation stands for.

A relocation means a place: what has its name in another module, or what lies at its address in its
section. `Denotes` says which values stand for that place, whatever the maps of functions hold. The
code looks a text symbol up at its bare address, without the addend, and drops the addend of what
it imports. -/
namespace RiscvSbt.Dispatch
open Library Context
open Block (FnId)
open Relocation

/-- The value of an imported symbol. -/
def imported (sym : Sym) : Import → Const
  | .data => .addr (.global sym.name) 0
  | .func addr => .int (BitVec.ofNat 32 addr)

namespace Translator
variable (lc : Option LcModule) (e : Env) (t : Translator)

/-- The instruction at an address is being translated. -/
def atAddr (addr : Nat) : Translator := {t with c := {t.c with s := {t.c.s with addr := addr}}}

/-- `Relocation.symValue`, where an external symbol is imported, which may declare a function. -/
def symValue (r : Reloc) : Except String (Const × Option Const × Translator) := do
  if r.isExternal then
    validate e r
    match r.sym with
    | none => throw "external symbol relocation but symbol not found"
    | some sym =>
      let ((i, _), t) ← t.import_ lc sym.name
      pure (imported sym i, none, t)
  else
    let (c, last, s) ← Relocation.symValue e t.c.s r
    pure (c, last, {t with c := {t.c with s := s}})

/-- The relocated value of the instruction at an address, if there is one. -/
def handleRelocation (rel : SBTRelocation) (addr : Nat) :
    Except String (Option Const × Translator × SBTRelocation) := do
  let (r, rel) ← rel.next addr
  match r with
  | none => pure (none, t, rel)
  | some r =>
    if !known r.type then throw "unknown relocation"
    else do
      let (c, last, t) ← t.symValue lc e r
      pure (some (relfn r.type (pcOf r addr) c), t,
        {rel with last := some r, lastSymVal := some (last.getD c)})

end Translator

/-- The guest has a global symbol of the name there. -/
def Defines (p : Program) (name : String) (k a : Nat) : Prop :=
  ∃ sec, p.sections[k]? = some sec ∧
    ∃ sym ∈ sec.symbols, sym.isGlobal = true ∧ sym.name = name ∧ sym.addr = a

/-- The function is the one that its name means to other modules: a global one of the guest, or an
imported one if the guest has none. -/
def Exported (p : Program) (obj : Obj) : Prop :=
  if isExternalFunc obj.addr then ∀ k a, ¬ Defines p obj.name k a
  else Defines p obj.name obj.sec obj.addr

/-- The guest address stands for its place in the section `k`. -/
def Stands (s : State) (k a : Nat) : Prop := a < FIRST_EXT_FUNC_ADDR ∧ Meant s k a

/-- The translated address of what lies the addend behind the symbol. Sections of the file are those
of the translation by `number`. -/
inductive Denotes (p : Program) (lc : Option LcModule) (number : Sec → Nat) (s : State)
    (r : Reloc) : Const → Prop where
  | externalData {sym : Sym} (ext : r.isExternal = true) (sym_eq : r.sym = some sym)
      (data : HasData lc (subst sym.name)) (undefined : ∀ k a, ¬ Defines p (subst sym.name) k a) :
      Denotes p lc number s r (.addr (.global sym.name) r.addend)
  /-- The address that is given for a function finds it. -/
  | externalFunc {sym : Sym} {o : Nat} {obj : Obj} (ext : r.isExternal = true)
      (sym_eq : r.sym = some sym) (alive : s.objs o = some obj) (name : obj.name = subst sym.name)
      (exported : Exported p obj) (lt : obj.addr < 2 ^ 32)
      (at_ : s.funcByAddr.get? obj.addr = some o) :
      Denotes p lc number s r (.int (BitVec.ofNat 32 obj.addr + r.addend))
  | label {sec : Sec} (ext : r.isExternal = false) (text : r.isLocalFunction = true)
      (sec_eq : r.sec = some sec) (stands : Stands s (number sec) r.symPlus) :
      Denotes p lc number s r (.int (r.value + r.addend))
  /-- The LLVM function of the function at the place. -/
  | func {sec : Sec} {o : Nat} {obj : Obj} {f : FnId} (ext : r.isExternal = false)
      (text : r.isLocalFunction = true) (sec_eq : r.sec = some sec) (alive : s.objs o = some obj)
      (place : obj.sec = number sec ∧ obj.addr = r.symPlus) (own : obj.addr < FIRST_EXT_FUNC_ADDR)
      (fn : obj.f = some f) (symbol : s.module.get? obj.name = some f) :
      Denotes p lc number s r (.addr (.func f) 0)
  | data {sec : Sec} (ext : r.isExternal = false) (text : r.isLocalFunction = false)
      (sec_eq : r.sec = some sec) :
      Denotes p lc number s r (.addr (.image sec.name) (r.value + r.addend))

/-- The bare address of the symbol stands for its place, and where calls get the symbol of a
function, the module has the function under its name. -/
structure Placed (e : Env) (s : State) (k : Nat) (r : Reloc) : Prop where
  stands : Stands s k r.saddr
  symbol : BySymbol e r → ∀ o obj, s.funcByAddr.get? r.saddr = some o → s.objs o = some obj →
    s.module.get? obj.name = obj.f

variable {p : Program} {lc : Option LcModule} {e : Env} {number : Sec → Nat} {t t' t₀ : Translator}
  {s u : State} {r : Reloc} {v : Const} {last : Option Const} {o k : Nat} {obj : Obj}
  {good : Config → Prop} {looks : Config → Nat → Nat → Prop}

/-! ### Runs -/

/-- What is known of the maps in any run. -/
structure Mapped (t : Translator) : Prop where
  maps : Maps t.c.s
  keys : Keys t.c.s
  base : FIRST_EXT_FUNC_ADDR ≤ t.extFuncAddr

theorem import_mapped {func : String} {i : Import × String}
    (h : t.import_ lc func = .ok (i, t')) (hr : Mapped t) : Mapped t' := by
  rcases import_cases h with ⟨-, -, -, -, -, rfl⟩ | ⟨-, -, -, rfl⟩ | ⟨ft, -, -, -, -, rfl⟩
  · exact hr
  · exact hr
  · exact ⟨(hr.maps.create _).addFunc _, (hr.keys.create _).addFunc (hr.maps.create _) _,
      Nat.le_add_right_of_le hr.base⟩

/-- **The maps of every run**, with imports and lookups. -/
theorem Runs.mapped (h : Runs p lc good looks t₀ t) (h₀ : Mapped t₀) :
    Mapped t := by
  induction h with
  | start => exact h₀
  | step _ _ step ih => exact ⟨ih.maps.step step, ih.keys.step ih.maps step, ih.base⟩
  | import_ _ imports ih => exact import_mapped imports ih
  | image pending sections _ _ _ ih =>
    have hm := ih.maps
    exact ⟨⟨hm.fresh, hm.ids, hm.addr, hm.name, hm.fn, hm.inj⟩, ih.keys, ih.base⟩
  | @look d k a _ _ _ look ih =>
    obtain ⟨sec, o, x, u, -, hu, rfl⟩ := look.get
    have hm := ih.maps
    have hm' : Maps {d.c.s with sec := k, addr := x} :=
      ⟨hm.fresh, hm.ids, hm.addr, hm.name, hm.fn, hm.inj⟩
    have hkeys := Keys.getByAddr (s := {d.c.s with sec := k, addr := x}) ih.keys hm' hu
    exact ⟨look.maps hm, hkeys, ih.base⟩

/-! ### Functions of the guest -/

def table : Reloc := ⟨4, .LO12_I, 8, some ⟨"table", 16, false⟩, some ⟨".data", false, 64⟩, 0⟩

end RiscvSbt.Dispatch
