import RiscvSbt.Caller.Machine
import RiscvSbt.Context.Distinguished
import RiscvSbt.Relocation.Machine

/-! External functions, and calls of functions that are known at run time only (`Translator.cpp`).

While a section is translated, functions of the C library are imported as relocations ask for them:
each gets an address that no function of the guest has. When all is translated, the map of functions
by address becomes the switch of the icaller. -/
namespace RiscvSbt.Dispatch
open Library Context
open Block (FnId)
open Caller (FuncType Guest Val)
open Relocation (Import)

def FIRST_EXT_FUNC_ADDR : Nat := 0xFFFF0000

def isExternalFunc (addr : Nat) : Bool := FIRST_EXT_FUNC_ADDR ≤ addr

/-- `libc.bc`. -/
structure LcModule where
  getFunction : String → Option FuncType
  getNamedGlobal : String → Bool := fun _ => false

def g_funcSubst : List (String × String) := [
  ("__addtf3", "sbt__addtf3"),
  ("__subtf3", "sbt__subtf3"),
  ("__multf3", "sbt__multf3"),
  ("__divtf3", "sbt__divtf3"),
  ("__extenddftf2", "sbt__extenddftf2"),
  ("__trunctfdf2", "sbt__trunctfdf2"),
  ("__lttf2", "sbt__lttf2")]

def subst (func : String) : String := (g_funcSubst.lookup func).getD func

/-- A translation, and the functions that it has imported. -/
structure Translator where
  c : Config
  extFuncAddr : Nat := FIRST_EXT_FUNC_ADDR
  /-- The types that functions of the module were created with. -/
  types : FnId → FuncType := fun _ => ⟨[], .void⟩

namespace Translator
variable (t : Translator)

/-- The object of an imported function, which is in no section: that it is in one is not looked
at. -/
def external (xfunc : String) (f : FnId) : Obj :=
  {name := xfunc, sec := t.c.s.sec, addr := t.extFuncAddr, f := some f}

/-- `f->create(ft)`, and the maps. -/
def declare (xfunc : String) (ft : FuncType) : Translator :=
  let (f, s) := t.c.s.create xfunc
  let obj := t.external xfunc f
  { c := {t.c with s := (s.newFunction obj).addFunc s.nextObj obj}
    extFuncAddr := t.extFuncAddr + 4
    types := if t.c.s.module.get? xfunc = none then Function.update t.types f ft else t.types }

/-- Answers what the C library has under a name, and the name that it has there. -/
def import_ (lc : Option LcModule) (func : String) :
    Except String ((Import × String) × Translator) :=
  let xfunc := subst func
  match t.c.s.func.get? xfunc with
  | some o => do pure ((.func (← t.c.s.live o).addr, xfunc), t)
  | none =>
    match lc with
    | none => throw "libc.bc file not found"
    | some lc =>
      match lc.getFunction xfunc with
      | none =>
        if lc.getNamedGlobal xfunc then pure ((.data, xfunc), t)
        else throw s!"function not found: {xfunc}"
      | some ft =>
        if ft.params.length < 9 then pure ((.func t.extFuncAddr, xfunc), t.declare xfunc ft)
        else throw "external functions with more than 8 params are not supported!"

/-! ### The icaller -/

/-- A case of the switch, behind the default one. -/
inductive Case where
  | dfl
  | call (f : FnId)
  | external (name : String) (ft : FuncType)

/-- The words that the icaller gets beside the target. -/
def icArgs : Nat := 8

def case (obj : Obj) : Except String Case :=
  -- XXX skip main for now
  if obj.name = "main" then pure .dfl
  else match obj.f with
    | none => throw "null function"
    | some f =>
      if !isExternalFunc obj.addr then pure (.call f)
      else if icArgs < Caller.wordArgs false (t.types f).params then
        throw "past the end of the arguments"
      else pure (.external obj.name (t.types f))

def genICaller : Except String (List (BitVec 32 × Case)) :=
  t.c.s.funcByAddr.data.mapM fun p => do
    let obj ← t.c.s.live p.2
    pure (BitVec.ofNat 32 obj.addr, ← t.case obj)

end Translator

/-- What a call of the icaller comes to. -/
inductive Outcome where
  | call (f : FnId)
  | external (name : String) (retref : Option Val) (vals : List Val)
  | abort

/-- The icaller is called: the target is switched on. -/
def icaller (cases : List (BitVec 32 × Translator.Case)) (g : Guest) (args : List (BitVec 32))
    (target : BitVec 32) :
    Except String Outcome :=
  match cases.lookup target with
  | none | some .dfl => pure .abort
  | some (.call f) => pure (.call f)
  | some (.external name ft) => do
    let (retref, vals) ← Caller.genICaller g ft args
    pure (.external name retref vals)

/-- `rv32_isExternal`. -/
def isExternal (target : BitVec 32) : BitVec 32 :=
  if (BitVec.ofNat 32 FIRST_EXT_FUNC_ADDR).ule target then 1 else 0

/-! ### Runs -/

/-- Steps of a translation from good states, with imports, new images, and lookups for relocations
that are allowed, between them. -/
inductive Runs (p : Program) (lc : Option LcModule) (good : Config → Prop)
    (looks : Config → Nat → Nat → Prop) (t₀ : Translator) : Translator → Prop where
  | start : Runs p lc good looks t₀ t₀
  | step {t : Translator} {c : Config} (h : Runs p lc good looks t₀ t) (hgood : good t.c)
      (step : t.c.step p = .ok c) : Runs p lc good looks t₀ {t with c := c}
  | import_ {t t' : Translator} {func : String} {r : Import × String}
      (h : Runs p lc good looks t₀ t) (imports : t.import_ lc func = .ok (r, t')) :
      Runs p lc good looks t₀ t'
  | image {t : Translator} (pending : Map Nat Block.PendingReloc)
      (sections : String → List Block.Constant) (h : Runs p lc good looks t₀ t)
      (idle : t.c.loop = none) (done : t.c.todo = []) :
      Runs p lc good looks t₀ {t with c := t.c.image pending sections}
  | look {t : Translator} {k a : Nat} {s : State} (h : Runs p lc good looks t₀ t)
      (hlooks : looks t.c k a) (look : Looks p t.c k a s) :
      Runs p lc good looks t₀ {t with c := {t.c with s := s}}

/-- Before the first section. -/
def Translator.init (pending : Map Nat Block.PendingReloc)
    (sections : String → List Block.Constant) : Translator where
  c := Config.init pending sections

end RiscvSbt.Dispatch
