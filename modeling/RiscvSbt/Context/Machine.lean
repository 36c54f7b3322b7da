import Mathlib.Data.String.Basic
import RiscvSbt.Block.Translate
import RiscvSbt.Library.Run

/-! The functions of a program and how they are found.

A section is scanned for the symbols that delimit functions, and each function is
translated as it is found. A call may name an address where no function is known: then a
function is made up on the spot, and `_nextFuncAddr` is to see that the loop over the
instructions switches to it when it gets there. `Function` objects are known by number.
The map of functions by name owns them, so that a function that takes the place of another
one there destroys it; what the code does with a destroyed one is undefined and is an
error here. -/
namespace RiscvSbt.Context
open Library Block

structure Symbol where
  name : String
  addr : Nat
  isFunction : Bool := true
  isGlobal : Bool := false
  deriving DecidableEq, Repr

/-- Function delimiters: global or function symbols. -/
def Symbol.isValid (sym : Symbol) : Bool := sym.isFunction || sym.isGlobal

structure Section where
  isText : Bool := true
  size : Nat
  /-- Ordered by address. -/
  symbols : List Symbol
  /-- The instruction at an address. Calls to external functions are not among its calls. -/
  inst : Nat → Inst

/-- The symbols at an address. -/
def Section.lookup (sec : Section) (addr : Nat) : List Symbol :=
  (sec.symbols.dropWhile (·.addr < addr)).takeWhile (·.addr = addr)

/-- A function that symbols delimit. -/
structure Func where
  name : String
  start : Nat
  stop : Nat
  deriving DecidableEq, Repr

/-- The scan of the symbols, outside of a function or inside of the one that started at
a symbol. The last function ends with the section. -/
def delimit (size : Nat) : Option Symbol → List Symbol → List Func
  | none, [] => []
  | some sym, [] => [⟨sym.name, sym.addr, size⟩]
  | none, next :: rest => delimit size (if next.isValid then some next else none) rest
  | some sym, next :: rest =>
    if next.isValid then ⟨sym.name, sym.addr, next.addr⟩ :: delimit size (some next) rest
    else delimit size (some sym) rest

def Section.funcs (sec : Section) : List Func :=
  if sec.isText then delimit sec.size none sec.symbols else []

/-- A `Function` object. -/
structure Obj where
  name : String
  /-- The section that holds the function. -/
  sec : Nat
  addr : Nat
  stop : Option Nat := none
  f : Option FnId := none
  /-- While the function is translated, the builder's state has these. -/
  blocks : Block.Function := {f := 0}

/-- A translated word, with the first LLVM instruction made for it. -/
structure Word where
  sec : Nat
  addr : Nat
  first : Option Nat
  deriving DecidableEq, Repr

structure State where
  blk : Block.State
  objs : Nat → Option Obj
  nextObj : Nat
  func : Map String Nat
  funcByAddr : Map Nat Nat
  /-- The functions of the LLVM module. -/
  module : Map String FnId
  nextFn : FnId
  /-- The destinations that an indirect branch got. -/
  dests : Nat → List Nat
  addr : Nat
  nextFuncAddr : Nat → Nat
  /-- The section and the function that are being translated. -/
  sec : Nat
  cur : Nat
  inMain : Bool
  /-- The emitted calls to internal functions: the address that the guest calls, and the
  function that is called for it. -/
  calls : List (Nat × FnId)
  /-- The words translated so far, in order. -/
  words : List Word

/-- The sections of the input files in the order of their translation, the options, and
how many instructions a function starts and ends with. -/
structure Program where
  sections : List Section
  opts : Block.Options := {}
  prologue : Nat := 0
  mainPrologue : Nat := 0
  epilogue : Nat := 0

namespace State

/-- The object behind a pointer. -/
def live (s : State) (o : Nat) : Except String Obj :=
  match s.objs o with
  | some obj => pure obj
  | none => throw "use of a destroyed function"

def setObj (s : State) (o : Nat) (obj : Obj) : State :=
  {s with objs := Function.update s.objs o (some obj)}

/-! ### Function maps -/

/-- `new Function`. -/
def newFunction (s : State) (obj : Obj) : State :=
  {s.setObj s.nextObj obj with nextObj := s.nextObj + 1}

/-- Destroys what a pointer held. -/
def destroy (objs : Nat → Option Obj) : Option Nat → Nat → Option Obj
  | some old => Function.update objs old none
  | none => objs

def addFunc (s : State) (o : Nat) (obj : Obj) : State :=
  { s with
    funcByAddr := s.funcByAddr.upsert obj.addr o
    func := s.func.upsert obj.name o
    objs := destroy s.objs (s.func.get? obj.name) }

/-- A function that the module already has is taken as it is. -/
def create (s : State) (name : String) : FnId × State :=
  match s.module.get? name with
  | some f => (f, s)
  | none =>
    (s.nextFn, {s with module := s.module.upsert name s.nextFn, nextFn := s.nextFn + 1})

/-- `llvm::Function::Create`: a name that is taken is changed. -/
def createNew (s : State) (name : String) : FnId × State :=
  ( s.nextFn,
    { s with
      module := if s.module.get? name = none then s.module.upsert name s.nextFn else s.module
      nextFn := s.nextFn + 1 } )

def updateNextFuncAddr (s : State) (sec : Nat) (next : Nat) : Except String State :=
  match s.funcByAddr.lowerBound next with
  | none => pure s
  | some (_, nf) => do
    let nfa := (← s.live nf).addr
    if nfa < s.addr then pure s
    else if s.addr < s.nextFuncAddr sec ∧ s.nextFuncAddr sec < nfa then pure s
    else pure {s with nextFuncAddr := Function.update s.nextFuncAddr sec nfa}

/-- The name of a function that no symbol names. -/
def generatedName (addr : Nat) : String := "f" ++ String.ofList (Nat.toDigits 16 addr)

def nameAt (sec : Section) (addr : Nat) : String :=
  match (sec.lookup addr).find? Symbol.isValid with
  | some sym => sym.name
  | none => generatedName addr

def getByAddr (s : State) (sec : Section) (addr : Nat) : Except String (Nat × State) :=
  match s.funcByAddr.get? addr with
  | some o => pure (o, s)
  | none => do
    let name := nameAt sec addr
    let o := s.nextObj
    let (f, s) := s.create name
    let obj : Obj := {name := name, sec := s.sec, addr := addr, f := some f}
    let s := (s.newFunction obj).addFunc o obj
    let s ← s.updateNextFuncAddr s.sec addr
    pure (o, s)

/-- Finds the function that is called, and calls it. -/
def handleCall (s : State) (sec : Section) (target : Nat) : Except String State := do
  let (o, s) ← s.getByAddr sec target
  match (← s.live o).f with
  | some f => pure {s with calls := s.calls ++ [(target, f)]}
  | none => throw "null function"

/-! ### Translating a function -/

variable (p : Program)

/-- `start` or `startMain`, up to the loop over the instructions. -/
def start (s : State) (o : Nat) (obj : Obj) : State :=
  if obj.name = "main" then
    let (f, s) := s.createNew obj.name
    let blk := {s.blk with func := {obj.blocks with f := f}}
    let (bb, blk) := blk.newBB obj.addr none
    { s.setObj o {obj with f := some f} with
      blk := (blk.setInsertBlock bb).ops p.mainPrologue
      inMain := true }
  else
    let (f, s) := s.create obj.name
    let blk := {s.blk with func := {obj.blocks with f := f}}
    {s.setObj o {obj with f := some f} with blk := blk.start obj.addr p.prologue}

/-- Ends a function, and answers its blocks. -/
def finish (s : State) : State :=
  let blk := s.blk
  let dests := fun i => if i ∈ blk.func.indBrs then s.dests i ++ blk.func.indBBs else s.dests i
  let blk :=
    if blk.insertBB.terminated then blk
    else if s.inMain then blk.emit .unreachable
    else (blk.ops p.epilogue).retVoid
  -- The last block may be empty.
  let blk := match blk.func.bbMap.data.getLast? with
    | some (_, bb) =>
      if (blk.bbs bb).insts = [] then {blk with layout := fun f => (blk.layout f).filter (· ≠ bb)}
      else blk
    | none => blk
  {s with blk := blk, dests := dests, inMain := false}

/-- The blocks from `src` on go to another function. -/
def transferBBs (blocks : Block.Function) (src : Nat) (dst : Block.Function) :
    Except String (Block.Function × Block.Function) :=
  if dst.bbMap.data ≠ [] then throw "to->_bbMap.empty()"
  else if dst.ubbMap.data ≠ [] then throw "to->_ubbMap.empty()"
  else
    let moved := blocks.bbMap.suffix src
    pure
      ( {blocks with bbMap := blocks.bbMap.erase src, ubbMap := blocks.ubbMap.erase src},
        { dst with
          nextBB := ((moved.data.map Prod.fst).find? (· ≠ src)).getD 0
          bbMap := moved
          ubbMap := blocks.ubbMap.suffix src } )

end State

/-- The loop over the instructions of a function. -/
structure Loop where
  st : Nat
  stop : Nat
  addr : Nat
  deriving DecidableEq, Repr

namespace State
variable (p : Program)

/-- `SBTSection::translate`, up to the loop over the instructions. -/
def translate (s : State) (sec : Nat) (o : Nat) : Except String (State × Loop) := do
  let obj ← s.live o
  let s ← {s with cur := o}.updateNextFuncAddr sec (obj.addr + 4)
  match obj.stop with
  | none => throw "_end != Constants::INVALID_ADDR"
  | some stop => pure (s.start p o obj, ⟨obj.addr, stop, obj.addr⟩)

def translateFunc (s : State) (func : Func) : Except String (State × Loop) :=
  let obj : Obj := {name := func.name, sec := s.sec, addr := func.start, stop := some func.stop}
  let o := s.nextObj
  ((s.newFunction obj).addFunc o obj).translate p s.sec o

/-- The function ends where another one starts. -/
def switch (s : State) (obj : Obj) (l : Loop) : Except String (State × Loop) := do
  match s.funcByAddr.get? l.addr with
  | none => throw "no function at the address to switch to"
  | some nextf => do
    let s := s.setObj s.cur {obj with stop := some l.addr}
    let next := {← s.live nextf with stop := some l.stop}
    let s := s.finish p
    let (blocks, moved) ← transferBBs s.blk.func l.addr next.blocks
    let s := s.setObj s.cur {obj with stop := some l.addr, blocks := blocks}
    (s.setObj nextf {next with blocks := moved}).translate p obj.sec nextf

/-- The function that an instruction calls. -/
def callee? : Act → Option Nat
  | .call target | .tail target => some target
  | _ => none

/-- What a call does before its code is emitted. -/
def call (s : State) (act : Act) : Except String State :=
  match callee? act, p.sections[s.sec]? with
  | none, _ => pure s
  | some target, some sec => s.handleCall sec target
  | some _, none => throw "null section"

def translateInstr (s : State) (obj : Obj) (sec : Section) (addr : Nat) : Except String State := do
  let s ← s.call p (sec.inst addr).act
  let blk ← s.blk.translateInstr p.opts addr (sec.inst addr)
  pure {s with blk := blk, words := s.words ++ [⟨obj.sec, addr, blk.bld.first⟩]}

/-- One turn of the loop: moves to the function that starts here, or translates an
instruction. -/
def turn (s : State) (l : Loop) : Except String (State × Loop) := do
  let obj ← s.live s.cur
  let s := {s with addr := l.addr}
  if l.addr ≠ l.st ∧ l.addr = s.nextFuncAddr obj.sec then s.switch p obj l
  else match p.sections[obj.sec]? with
    | none => throw "null section"
    | some sec => do
      let s ← s.translateInstr p obj sec l.addr
      pure (s, {l with addr := l.addr + 4})

/-- The end of the loop. -/
def leave (s : State) : Except String State := do
  let obj ← s.live s.cur
  let s := s.finish p
  pure (s.setObj s.cur {obj with blocks := s.blk.func})

end State

/-- Where a translation is: in the loop of a function, or between two functions. -/
structure Config where
  s : State
  /-- The section to go on with after `todo`. -/
  next : Nat
  todo : List Func
  loop : Option Loop

namespace Config
variable (p : Program)

/-- A translation that is complete stays as it is. -/
def step (c : Config) : Except String Config :=
  match c.loop, c.todo with
  | some l, todo =>
    if l.addr < l.stop then do
      let (s, l) ← c.s.turn p l
      pure ⟨s, c.next, todo, some l⟩
    else do
      let s ← c.s.leave p
      pure ⟨s, c.next, todo, none⟩
  | none, func :: todo => do
    let (s, l) ← c.s.translateFunc p func
    pure ⟨s, c.next, todo, some l⟩
  | none, [] =>
    match p.sections[c.next]? with
    | none => pure c
    | some sec =>
      pure ⟨{c.s with sec := c.next, blk := {c.s.blk with bld := {}}}, c.next + 1, sec.funcs, none⟩

/-- Before the first section. Data relocations may already wait for labels. -/
def init (pending : Map Nat PendingReloc) (sections : String → List Constant) : Config where
  s := {
    blk := {
      bbs _ := {f := 0}
      nextBlock := 0
      nextInstr := 0
      marks _ := none
      layout _ := []
      bld := {}
      func := {f := 0}
      pending := pending
      sections := sections }
    objs _ := none
    nextObj := 0
    func := Map.empty
    funcByAddr := Map.empty
    module := Map.empty
    nextFn := 0
    dests _ := []
    addr := 0
    nextFuncAddr _ := 0
    sec := 0
    cur := 0
    inMain := false
    calls := []
    words := [] }
  next := 0
  todo := []
  loop := none

/-- The configurations of a translation whose steps all start where `good` holds. -/
def Reach (good : Config → Prop) (pending : Map Nat PendingReloc)
    (sections : String → List Constant) : Config → Prop :=
  Run (step p) good (init pending sections)

end Config
end RiscvSbt.Context
