import Mathlib.Data.List.Infix
import Mathlib.Logic.Equiv.Basic
import Mathlib.Logic.Function.Basic
import Mathlib.Algebra.GroupWithZero.Nat

/-! Reading the sections, symbols and relocations of an object file (`Object::readSymbols`).

The object is LLVM's view of an ELF file. Common symbols, that have no section, are laid out in
a section of their own behind all others. Symbols and relocations find their section by its
name. -/
namespace RiscvSbt.Object

abbrev Name := List Char

def COMMON : Name := ".common".toList
def RELA : Name := ".rela".toList
def DEBUG : Name := ".debug".toList

/-- A section header. One of type `SHT_RELA` or `SHT_REL` applies to a section; the others have no
relocations. -/
structure Header (R : Type) where
  name : Name
  applies : Option Nat := none
  relocs : List R := []
  only : applies = none → relocs = [] := by intro _; rfl

/-- An entry of the symbol table. The value of a common symbol is its alignment. -/
structure Entry where
  debug : Bool := false
  common : Bool := false
  sec : Option Nat := none
  address : Nat := 0
  value : Nat := 0
  size : Nat := 0
  pow : common = true → ∃ n, value = 2 ^ n := by intro h; cases h

/-- An object file. Sections are numbered in the order of their headers, and to each of them at
most one header applies. -/
structure Elf (R : Type) where
  headers : List (Header R)
  symbols : List Entry
  sec_lt : ∀ e ∈ symbols, ∀ i, e.sec = some i → i < headers.length
  applies_lt : ∀ h ∈ headers, ∀ i, h.applies = some i → i < headers.length
  applies_one : ∀ (i j : Nat) (h h' : Header R), headers[i]? = some h → headers[j]? = some h' →
    h.applies = h'.applies → h.applies ≠ none → i = j

/-- A symbol that was read: its place in the symbol table and its section. -/
structure Symbol where
  index : Nat
  entry : Entry
  address : Nat
  sec : Option Nat

structure Section (R : Type) where
  name : Name
  symbols : List Symbol := []
  relocs : List R := []

/-- `std::sort`, by addresses: the order of equal ones is left open. -/
structure Sorter where
  sort : List Symbol → List Symbol
  perm : ∀ l, (sort l).Perm l
  sorted : ∀ l, (sort l).Pairwise fun a b => a.address ≤ b.address

/-- A merge sort is one. -/
def byAddress : Sorter where
  sort l := l.mergeSort fun a b => a.address ≤ b.address
  perm l := List.mergeSort_perm l _
  sorted l := by
    have htrans (a b c : Symbol) (hab : decide (a.address ≤ b.address) = true)
        (hbc : decide (b.address ≤ c.address) = true) : decide (a.address ≤ c.address) = true :=
      decide_eq_true (Nat.le_trans (of_decide_eq_true hab) (of_decide_eq_true hbc))
    have htotal (a b : Symbol) :
        (decide (a.address ≤ b.address) || decide (b.address ≤ a.address)) = true := by
      simpa using Nat.le_total a.address b.address
    exact (List.pairwise_mergeSort htrans htotal l).imp of_decide_eq_true

/-- The loop over the symbols: the next offset in the common section, and the symbols by the name
of their section. -/
structure Reading where
  commonOffs : Nat := 0
  symbols : List Symbol := []
  sectionToSymbols : Name → List Symbol := fun _ => []

/-- The sections, the common one behind those of the file, and all symbols. -/
structure Read (R : Type) where
  sections : List (Section R)
  symbols : List Symbol

variable {R : Type}

namespace Elf
variable (O : Elf R)

/-- The number of the common section. -/
def commonSec : Nat := O.headers.length

def names : List Name := O.headers.map Header.name ++ [COMMON]

/-- One symbol. Offsets do not overflow: sizes have 32 bits, and so has that of the symbol
table. -/
def readSymbol (st : Reading) (p : Entry × Nat) : Reading :=
  let (e, index) := p
  -- skip debug symbols
  if e.debug then st
  else
    let sym : Symbol :=
      if e.common then ⟨index, e, st.commonOffs, some O.commonSec⟩ else ⟨index, e, e.address, e.sec⟩
    { commonOffs := if e.common then st.commonOffs + e.size else st.commonOffs
      symbols := st.symbols ++ [sym]
      sectionToSymbols :=
        match sym.sec.bind (O.names[·]?) with
        | some name =>
          Function.update st.sectionToSymbols name (st.sectionToSymbols name ++ [sym])
        | none => st.sectionToSymbols }

def readAll : Reading := O.symbols.zipIdx.foldl O.readSymbol {}

/-- Sets the symbols of the sections. They are moved: a second section of the same name finds
none. -/
def setSymbols (srt : Sorter) : List (Section R) → (Name → List Symbol) → List (Section R)
  | [], _ => []
  | s :: secs, m =>
    {s with symbols := srt.sort (m s.name)} :: setSymbols srt secs (Function.update m s.name [])

/-- The last section of each name. -/
def sectionByName : Name → Option Nat :=
  O.names.zipIdx.foldl (fun m p => Function.update m p.1 (some p.2)) fun _ => none

end Elf

/-- The name of the section that a header is taken to apply to. -/
def Header.target (h : Header R) : Name :=
  if RELA <+: h.name then h.name.drop RELA.length else h.name

def Header.isDebug (h : Header R) : Prop := DEBUG <:+: h.name

instance (h : Header R) : Decidable h.isDebug := inferInstanceAs (Decidable (_ <:+: _))

/-- Sets the relocations of the section that a header names. -/
def Header.attach (byName : Name → Option Nat) (secs : List (Section R)) (h : Header R) :
    List (Section R) :=
  if h.isDebug then secs
  else match byName h.target with
    | none => secs
    | some i => secs.modify i fun s => {s with relocs := h.relocs}

def Elf.readSymbols (O : Elf R) (srt : Sorter) : Read R :=
  let st := O.readAll
  let secs := Elf.setSymbols srt (O.names.map fun name => {name := name}) st.sectionToSymbols
  ⟨O.headers.foldl (Header.attach O.sectionByName) secs, st.symbols⟩

/-- `CommonSection::size`, that is summed when its symbols are set. -/
def Section.commonSize (s : Section R) : Nat := (s.symbols.map fun sym => sym.entry.size).sum

end RiscvSbt.Object
