import RiscvSbt.Object.Sections
import RiscvSbt.Library.Place

/-! The layout of the common section.

Common symbols are placed one behind the other, with no regard to their alignments. The section
sums its size over the symbols it is given, and these are taken by name. -/
namespace RiscvSbt.Object
open Library

variable {R : Type} {O : Elf R} {srt : Sorter}

def Elf.commons (O : Elf R) : List Entry := O.symbols.filter fun e => !e.debug && e.common

def Symbol.inCommon (O : Elf R) (sym : Symbol) : Bool := sym.sec = some O.commonSec

def Read.commons (r : Read R) (O : Elf R) : List Symbol := r.symbols.filter (Symbol.inCommon O)

/-- A valid layout: disjoint ranges inside the section, aligned wherever its base of 8 bytes
is. -/
structure LaidOut (O : Elf R) (r : Read R) : Prop where
  disjoint : (r.commons O).Pairwise fun a b =>
    a.address + a.entry.size ≤ b.address ∨ b.address + b.entry.size ≤ a.address
  inside : ∀ sym ∈ r.commons O, ∃ s, r.sections[O.commonSec]? = some s ∧
    sym.address + sym.entry.size ≤ s.commonSize
  aligned : ∀ sym ∈ r.commons O, sym.entry.value ≤ 8 →
    ∀ base, 8 ∣ base → sym.entry.value ∣ base + sym.address

/-- The sizes before each common symbol happen to align it. -/
def Elf.Aligned (O : Elf R) : Prop :=
  ∀ pre e post, O.commons = pre ++ e :: post → e.value ≤ 8 → e.value ∣ (pre.map Entry.size).sum

/-! ### Addresses -/

/-- A symbol's entry and its place. -/
def Symbol.placed (sym : Symbol) : Entry × Nat := (sym.entry, sym.address)

theorem symbolOf_inCommon {e : Entry} (he : e ∈ O.symbols) (offs index : Nat) :
    (O.symbolOf offs e index).inCommon O = e.common := by
  cases hc : e.common with
  | true => simp [Elf.symbolOf, hc, Symbol.inCommon]
  | false =>
    -- sections of the file have lower numbers
    have hne : e.sec ≠ some O.commonSec := fun h => Nat.lt_irrefl _ (O.sec_lt e he _ h)
    simp [Elf.symbolOf, hc, Symbol.inCommon, hne]

theorem foldl_commons (l : List (Entry × Nat)) (hl : ∀ p ∈ l, p.1 ∈ O.symbols) (st : Reading) :
    (((l.foldl O.readSymbol st).symbols.filter (Symbol.inCommon O)).map Symbol.placed) =
      (st.symbols.filter (Symbol.inCommon O)).map Symbol.placed ++
        place Entry.size st.commonOffs ((l.map Prod.fst).filter fun e => !e.debug && e.common) := by
  induction l generalizing st with
  | nil => simp [place]
  | cons p l ih =>
    obtain ⟨e, index⟩ := p
    have he : e ∈ O.symbols := hl (e, index) List.mem_cons_self
    rw [List.foldl_cons, ih fun p hp => hl p (List.mem_cons_of_mem _ hp)]
    cases hd : e.debug with
    | true => simp [Elf.readSymbol_debug hd, hd]
    | false =>
      rw [Elf.readSymbol_symbols hd, Elf.readSymbol_offs hd, List.filter_append]
      cases hc : e.common with
      | true =>
        have hin := (symbolOf_inCommon he st.commonOffs index).trans hc
        have hplaced : (O.symbolOf st.commonOffs e index).placed = (e, st.commonOffs) := by
          simp [Elf.symbolOf, hc, Symbol.placed]
        simp [hin, hd, hc, place, hplaced]
      | false =>
        have hin := (symbolOf_inCommon he st.commonOffs index).trans hc
        simp [hin, hd, hc]

/-- Common symbols are placed in the order of the symbol table. -/
theorem commons_placed (O : Elf R) (srt : Sorter) :
    ((O.readSymbols srt).commons O).map Symbol.placed = place Entry.size 0 O.commons := by
  have hfold := foldl_commons (O := O) O.symbols.zipIdx
    (fun p hp => (List.mem_zipIdx' hp).2 ▸ List.getElem_mem _) {}
  simpa [Elf.readSymbols, Read.commons, Elf.readAll, Elf.commons] using hfold

theorem mem_commons_placed (srt : Sorter) {p : Entry × Nat} :
    p ∈ place Entry.size 0 O.commons ↔
      ∃ sym ∈ (O.readSymbols srt).commons O, sym.placed = p := by
  rw [← commons_placed O srt, List.mem_map]

theorem commons_disjoint (O : Elf R) (srt : Sorter) :
    ((O.readSymbols srt).commons O).Pairwise fun a b =>
      a.address + a.entry.size ≤ b.address ∨ b.address + b.entry.size ≤ a.address := by
  have hplace := place_disjoint Entry.size 0 O.commons
  rw [← commons_placed O srt, List.pairwise_map] at hplace
  exact hplace.imp .inl

theorem commons_aligned_iff (O : Elf R) (srt : Sorter) :
    (∀ sym ∈ (O.readSymbols srt).commons O, sym.entry.value ≤ 8 →
      ∀ base, 8 ∣ base → sym.entry.value ∣ base + sym.address) ↔ O.Aligned := by
  constructor
  · intro h pre e post hsplit hle
    obtain ⟨sym, hsym, hplaced⟩ := (mem_commons_placed srt).1
      (mem_place.2 ⟨pre, post, hsplit, (Nat.zero_add _).symm⟩)
    obtain ⟨rfl, haddr⟩ := Prod.mk.inj hplaced
    have hdvd := h sym hsym hle 0 (Nat.dvd_zero 8)
    rwa [Nat.zero_add, haddr] at hdvd
  · intro h sym hsym hle base hbase
    obtain ⟨pre, post, hsplit, haddr⟩ := mem_place.1
      ((mem_commons_placed srt).2 ⟨sym, hsym, rfl⟩)
    rw [haddr, Nat.zero_add]
    refine Nat.dvd_add (Nat.dvd_trans ?_ hbase) (h pre _ post hsplit hle)
    -- it is a power of two
    have hmem : sym.entry ∈ O.commons := hsplit ▸ List.mem_append_right _ List.mem_cons_self
    have hcommon : sym.entry.common = true := by
      simpa using (Bool.and_eq_true _ _ ▸ (List.mem_filter.1 hmem).2).2
    obtain ⟨n, hn⟩ := sym.entry.pow hcommon
    rw [hn] at hle ⊢
    have hle3 : 2 ^ n ≤ 2 ^ 3 := hle
    exact Nat.pow_dvd_pow 2 ((Nat.pow_le_pow_iff_right (by decide)).1 hle3)

/-! ### The size of the section -/

theorem names_common (O : Elf R) : O.names[O.commonSec]? = some COMMON := by
  simp [Elf.names, Elf.commonSec]

theorem names_take (O : Elf R) : O.names.take O.commonSec = O.headers.map Header.name := by
  simp [Elf.names, Elf.commonSec]

/-- Unless a header has its name, the common section is the only one of it. -/
theorem nameOf_common (h : COMMON ∉ O.headers.map Header.name) (sym : Symbol) :
    O.nameOf sym = some COMMON ↔ sym.inCommon O := by
  rw [Symbol.inCommon, decide_eq_true_iff, Elf.nameOf]
  constructor
  · intro hname
    obtain ⟨i, hsec, hget⟩ := Option.bind_eq_some_iff.1 hname
    rcases Nat.lt_trichotomy i O.commonSec with hi | hi | hi
    · rw [← names_take] at h
      exact absurd (List.mem_of_getElem? ((List.getElem?_take_of_lt hi).trans hget)) h
    · rw [hsec, hi]
    · rw [List.getElem?_eq_none (by simp [Elf.names, Elf.commonSec] at hi ⊢; omega)] at hget
      cases hget
  · intro hsec
    rw [hsec, Option.bind_some, names_common]

/-- The reported size is that of the common symbols, unless they went to a header's section. -/
theorem commonSize_eq (O : Elf R) (srt : Sorter) :
    ∃ s, (O.readSymbols srt).sections[O.commonSec]? = some s ∧
      s.commonSize = if COMMON ∈ O.headers.map Header.name then 0
        else (O.commons.map Entry.size).sum := by
  have hsec := section_symbols O srt O.commonSec
  rw [names_common, names_take, Option.map_some] at hsec
  obtain ⟨s, hs, hsyms⟩ := Option.map_eq_some_iff.1 hsec
  refine ⟨s, hs, ?_⟩
  rw [Section.commonSize, hsyms]
  split
  · rfl
  next hno =>
    have hfilter : O.readAll.symbols.filter (fun sym => O.nameOf sym = some COMMON) =
        (O.readSymbols srt).commons O :=
      List.filter_congr fun sym _ => by
        rw [Bool.eq_iff_iff, decide_eq_true_iff, nameOf_common hno]
    have hsizes : ((O.readSymbols srt).commons O).map (fun sym => sym.entry.size) =
        O.commons.map Entry.size := by
      have hplaced := congrArg (List.map fun p => p.1.size) (commons_placed O srt)
      rw [List.map_map] at hplaced
      exact hplaced.trans (place_items Entry.size 0 O.commons)
    rw [((srt.perm _).map _).sum_eq, hfilter, hsizes]

theorem commons_inside_iff (O : Elf R) (srt : Sorter) :
    (∀ sym ∈ (O.readSymbols srt).commons O, ∃ s,
      (O.readSymbols srt).sections[O.commonSec]? = some s ∧
        sym.address + sym.entry.size ≤ s.commonSize) ↔
      (O.commons.map Entry.size).sum = 0 ∨ COMMON ∉ O.headers.map Header.name := by
  obtain ⟨s, hs, hsize⟩ := commonSize_eq O srt
  constructor
  · intro h
    by_cases hname : COMMON ∈ O.headers.map Header.name
    · refine .inl (sum_eq_zero_of_place 0 fun p hp => ?_)
      obtain ⟨sym, hsym, rfl⟩ := (mem_commons_placed srt).1 hp
      obtain ⟨s', hs', hle⟩ := h sym hsym
      rw [Option.some.inj (hs'.symm.trans hs), hsize, if_pos hname] at hle
      exact hle
    · exact .inr hname
  · intro h sym hsym
    refine ⟨s, hs, ?_⟩
    have hin := place_inside ((mem_commons_placed srt).2 ⟨sym, hsym, rfl⟩)
    have hle : (O.commons.map Entry.size).sum ≤ s.commonSize := by
      rw [hsize]
      rcases h with h | h
      · rw [h]
        exact Nat.zero_le _
      · rw [if_neg h]
    exact Nat.le_trans hin (by omega)

/-- The layout is valid just when it happens to be aligned and the section's name is its own. -/
theorem laidOut_iff (O : Elf R) (srt : Sorter) :
    LaidOut O (O.readSymbols srt) ↔
      O.Aligned ∧ ((O.commons.map Entry.size).sum = 0 ∨ COMMON ∉ O.headers.map Header.name) := by
  rw [← commons_aligned_iff O srt, ← commons_inside_iff O srt]
  exact ⟨fun h => ⟨h.aligned, h.inside⟩, fun h => ⟨commons_disjoint O srt, h.2, h.1⟩⟩

/-- `char c; int n;`, both common. -/
def charInt : Elf Unit where
  headers := []
  symbols :=
    [{ common := true, value := 1, size := 1, pow := fun _ => ⟨0, rfl⟩ },
      { common := true, value := 4, size := 4, pow := fun _ => ⟨2, rfl⟩ }]
  sec_lt := by simp
  applies_lt := by simp
  applies_one := by simp

/-- The `int` is placed at 1. -/
theorem charInt_misaligned : ¬ LaidOut charInt (charInt.readSymbols byAddress) := fun h =>
  absurd (h.aligned _ (.tail _ (.head _)) (by decide) 0 (by decide)) (by decide)

end RiscvSbt.Object
