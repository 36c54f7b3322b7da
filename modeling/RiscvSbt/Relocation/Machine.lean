import Mathlib.Algebra.Group.Int.Defs
import RiscvSbt.Context.Maps

/-! Relocations of a text section.

The relocations of a section are taken in the order of their addresses, while its
instructions are translated. One of `auipc` and `jalr` stands for both: it is replaced by a
proxy for each. The symbol of a relocation is looked at to find out what it refers to, and
the address of that goes through the formula of the relocation. Addresses that are not
known yet are those of `Base`, that the host's linker gives. -/
namespace RiscvSbt.Relocation
open Library Context

inductive RType where
  | HI20
  | LO12_I
  | LO12_S
  | PCREL_HI20
  | PCREL_LO12_I
  | PCREL_LO12_S
  | CALL
  | BRANCH
  | JAL
  | RELAX
  | PROXY_CALL_HI
  | PROXY_CALL_LO
  | other (type : Nat)
  deriving DecidableEq, Repr

/-- A symbol, of type `ST_Function` or not. -/
structure Sym where
  name : String
  addr : BitVec 32
  isFunction : Bool
  deriving DecidableEq, Repr

structure Sec where
  name : String
  isText : Bool
  size : Nat
  deriving DecidableEq, Repr

/-- Both kinds of relocations. A section symbol is no symbol here. Only a proxy has the address
of the upper half: of any other relocation it is what lies in memory in its place. -/
structure Reloc where
  offset : Nat
  type : RType
  addend : BitVec 32
  sym : Option Sym
  sec : Option Sec
  hiPC : Nat := 0
  deriving DecidableEq, Repr

namespace Reloc

def isLocalFunction (r : Reloc) : Bool :=
  (match r.sym with
    | some sym => sym.isFunction
    | none => false) ||
  match r.sec with
    | some sec => sec.isText
    | none => false

def isExternal (r : Reloc) : Bool :=
  match r.sym with
  | some sym => sym.addr = 0 && r.sec = none
  | none => false

/-- `symAddr() + addend()`, with 64 bits. -/
def symPlus (r : Reloc) : Nat :=
  (((match r.sym with
    | some sym => (sym.addr.toNat : Int)
    | none => 0) + r.addend.toInt) % 2 ^ 64).toNat

end Reloc

/-! ### Constants -/

/-- What the host's linker places. -/
inductive Base where
  | func (f : Block.FnId)
  | global (name : String)
  /-- The shadow image of a section. -/
  | image (name : String)
  deriving DecidableEq, Repr

inductive Const where
  | int (v : BitVec 32)
  | addr (b : Base) (offs : BitVec 32)
  /-- The formula of a relocation, for an address that is not known yet. -/
  | formula (type : RType) (pc : BitVec 32) (b : Base) (offs : BitVec 32)
  deriving DecidableEq, Repr

/-- The formulas. Those of the lower halves that count from it get the address of the upper
one. -/
def formula (type : RType) (pc v : BitVec 32) : BitVec 32 :=
  match type with
  | .HI20 => (v + 0x800#32) >>> 12
  | .LO12_I | .LO12_S => v - ((v + 0x800#32) &&& 0xFFFFF000#32)
  | .PROXY_CALL_HI | .PCREL_HI20 => (v - pc + 0x800#32) >>> 12
  | .PROXY_CALL_LO | .PCREL_LO12_I | .PCREL_LO12_S =>
    v - pc - ((v - pc + 0x800#32) &&& 0xFFFFF000#32)
  | _ => v - pc

def relfn (type : RType) (pc : BitVec 32) : Const → Const
  | .int v => .int (formula type pc v)
  | .addr b offs => .formula type pc b offs
  | c => c

/-! ### Going through the relocations -/

/-- The relocations and the proxies that are left, and what was handled last. -/
structure SBTRelocation where
  relocs : List Reloc
  proxyRelocs : List Reloc := []
  last : Option Reloc := none
  lastSymVal : Option Const := none

namespace SBTRelocation

/-- `nextReloc`. -/
def skipRelax (relocs : List Reloc) : List Reloc := relocs.dropWhile (·.type = .RELAX)

/-- The relocations from an address on. -/
def behind (addr : Nat) (relocs : List Reloc) : List Reloc :=
  relocs.dropWhile fun r => r.offset < addr || r.type = .RELAX

/-- Takes the first relocation, if it is the one of an address. -/
def take (addr : Nat) : List Reloc → Except String (Option (Reloc × List Reloc))
  | [] => pure none
  | r :: rest =>
    if r.offset ≠ addr then pure none
    else match skipRelax rest with
      | [] => pure (some (r, []))
      | next :: rest =>
        if next.offset = addr then throw "!next || next->offset() != addr"
        else pure (some (r, next :: rest))

def getReloc (rel : SBTRelocation) (addr : Nat) : Except String (Option Reloc × SBTRelocation) := do
  let rel := {rel with
    relocs := behind addr rel.relocs
    proxyRelocs := rel.proxyRelocs.dropWhile (·.offset < addr)}
  match ← take addr rel.relocs with
  | some (r, rest) => pure (some r, {rel with relocs := rest})
  | none =>
    match ← take addr rel.proxyRelocs with
    | some (r, rest) => pure (some r, {rel with proxyRelocs := rest})
    | none => pure (none, rel)

def addProxyReloc (rel : SBTRelocation) (r : Reloc) : SBTRelocation :=
  {rel with proxyRelocs := rel.proxyRelocs ++
    [{r with type := .PROXY_CALL_HI},
      {r with type := .PROXY_CALL_LO, hiPC := r.offset, offset := r.offset + 4}]}

/-- The relocation that is handled at an address. -/
def next (rel : SBTRelocation) (addr : Nat) : Except String (Option Reloc × SBTRelocation) := do
  let (r, rel) ← rel.getReloc addr
  match r with
  | none => pure (none, rel)
  | some r => if r.type = .CALL then (rel.addProxyReloc r).getReloc addr else pure (some r, rel)

def isCall (rel : SBTRelocation) (addr : Nat) : Bool :=
  match rel.last with
  | some r => r.offset = addr && r.type = .PROXY_CALL_LO
  | none => false

end SBTRelocation

/-! ### What a relocation refers to -/

/-- What the C library has under a name. A function gets a fake guest address. -/
inductive Import where
  | data
  | func (addr : Nat)

/-- The section that is translated, and what does not change meanwhile. -/
structure Env where
  secName : String
  sec : Section
  /-- `Translator::import`. -/
  import_ : String → Except String Import
  useICallerForIIntFuncs : Bool := false
  symBoundsCheck : Bool := false

/-- `Function::isFunction`. -/
def isFunction (e : Env) (s : State) (addr : Nat) : Bool :=
  (s.funcByAddr.get? addr).isSome || (e.sec.lookup addr).any Symbol.isValid

def validate (e : Env) (r : Reloc) : Except String Unit :=
  match r.sym, r.sec with
  | some sym, some sec =>
    if e.symBoundsCheck && !r.isExternal && sec.size ≤ sym.addr.toNat then
      throw "out of bounds symbol relocation"
    else pure ()
  | _, none => if r.isLocalFunction then throw "sec || !isLocalFunc" else pure ()
  | none, some _ => pure ()

/-- An internal function: its symbol, and its guest address where calls need that. -/
def funcValue (e : Env) (s : State) (type : RType) (saddr : Nat) (name : String) :
    Except String (Const × Option Const) :=
  if e.useICallerForIIntFuncs then pure (.int (BitVec.ofNat 32 saddr), none)
  else match s.module.get? name with
    | none => throw "Internal function symbol not found!"
    | some f =>
      if type = .JAL then pure (.int (BitVec.ofNat 32 saddr), none)
      else pure (.addr (.func f) 0, some (.int (BitVec.ofNat 32 saddr)))

/-- The function at an address, that lies ahead if it is not known yet. -/
def funcAt (e : Env) (s : State) (saddr : Nat) : Except String (Nat × State) :=
  match s.funcByAddr.get? saddr with
  | some o => pure (o, s)
  | none => if saddr ≤ s.addr then throw "saddr > _ctx->addr" else s.getByAddr e.sec saddr

/-- The address that goes into the formula, what is remembered as the value of the symbol,
and the functions. -/
def symValue (e : Env) (s : State) (r : Reloc) : Except String (Const × Option Const × State) := do
  validate e r
  if r.isExternal then
    match r.sym with
    | none => throw "external symbol relocation but symbol not found"
    | some sym =>
      match ← e.import_ sym.name with
      | .data => pure (.addr (.global sym.name) 0, none, s)
      | .func addr => pure (.int (BitVec.ofNat 32 addr), none, s)
  else if r.isLocalFunction then
    let saddr := match r.sym with
      | some sym => sym.addr.toNat
      | none => r.symPlus
    if isFunction e s saddr then
      let (o, s) ← funcAt e s saddr
      let (c, last) ← funcValue e s r.type saddr (← s.live o).name
      pure (c, last, s)
    else pure (.int (BitVec.ofNat 32 saddr), none, s)
  else match r.sec with
    | none => throw "reloc->hasSec()"
    | some sec => pure (.addr (.image sec.name) (BitVec.ofNat 32 r.symPlus), none, s)

/-- The relocations that are read as proxies with the address of the upper half. -/
def RType.readsHiPC : RType → Bool
  | .PROXY_CALL_LO | .PCREL_LO12_I | .PCREL_LO12_S => true
  | _ => false

/-- The address that the formula of a relocation counts from. -/
def pcOf (r : Reloc) (addr : Nat) : BitVec 32 :=
  BitVec.ofNat 32 (if r.type.readsHiPC then r.hiPC else addr)

/-- Whether the type of a relocation is one that text sections have. -/
def known : RType → Bool
  | .HI20 | .LO12_I | .LO12_S | .PCREL_HI20 | .PCREL_LO12_I | .PCREL_LO12_S | .BRANCH | .JAL => true
  | .PROXY_CALL_HI | .PROXY_CALL_LO => true
  | _ => false

/-- The relocated value of the instruction at an address, if there is one. -/
def handleRelocation (e : Env) (s : State) (rel : SBTRelocation) (addr : Nat) :
    Except String (Option Const × State × SBTRelocation) := do
  let (r, rel) ← rel.next addr
  match r with
  | none => pure (none, s, rel)
  | some r =>
    if !known r.type then throw "unknown relocation"
    else do
      let (c, last, s) ← symValue e s r
      pure (some (relfn r.type (pcOf r addr) c), s,
        {rel with last := some r, lastSymVal := some (last.getD c)})

end RiscvSbt.Relocation
