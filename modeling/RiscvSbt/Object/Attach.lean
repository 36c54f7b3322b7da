import RiscvSbt.Object.Sections

/-! Which symbols and relocations a section is given.

They should be those of the file whatever the order of its headers. Both go by name, and a header
sets the relocations of the section it names even when it has none to set. -/
namespace RiscvSbt.Object

variable {R : Type} {O O' : Elf R} {srt : Sorter} {π : Equiv.Perm Nat}

/-- The section an entry is defined in. -/
def Entry.definedIn (O : Elf R) (e : Entry) : Option Nat :=
  if e.common then some O.commonSec else e.sec

namespace Elf
variable (O : Elf R) (i : Nat)

/-- The symbols defined in a section, by their places in the symbol table. -/
def defined : List (Entry × Nat) :=
  O.symbols.zipIdx.filter fun p => !p.1.debug && p.1.definedIn O = some i

/-- The relocations of the header that applies to a section. -/
def relocsOf : List R :=
  ((O.headers.find? fun h => h.applies = some i).map Header.relocs).getD []

end Elf

/-- A symbol by its entry and place. -/
def Symbol.key (sym : Symbol) : Entry × Nat := (sym.entry, sym.index)

structure AttachedTo (O : Elf R) (i : Nat) (s : Section R) : Prop where
  symbols : (s.symbols.map Symbol.key).Perm (O.defined i)
  sorted : s.symbols.Pairwise fun a b => a.address ≤ b.address
  relocs : s.relocs = O.relocsOf i

/-- Each section holds its own symbols and relocations. -/
def Attached (O : Elf R) (r : Read R) : Prop :=
  ∀ i ≤ O.commonSec, ∃ s, r.sections[i]? = some s ∧ AttachedTo O i s

/-- The headers that a name stands for. -/
def Elf.namers (O : Elf R) (name : Name) : List (Header R) :=
  O.headers.filter fun h => !decide h.isDebug && h.target = name

/-- An order of the headers, and names, with which attachment works. -/
structure Ordered (O : Elf R) : Prop where
  /-- Where two sections share a name the later one defines no symbol. -/
  symbols : ∀ i j, i < j → O.names[i]? = O.names[j]? → ∀ e ∈ O.symbols,
    e.debug = false → e.definedIn O ≠ some j
  /-- The last section of a name has the relocations of the last header that names it, the
  others have none. -/
  relocs : ∀ (i : Nat) (name : Name), O.names[i]? = some name → O.relocsOf i =
    if name ∈ O.names.drop (i + 1) then []
    else ((O.namers name).getLast?.map Header.relocs).getD []

/-! ### Symbols -/

theorem symbolOf_sec (O : Elf R) (offs : Nat) (e : Entry) (index : Nat) :
    (O.symbolOf offs e index).sec = e.definedIn O := by
  unfold Elf.symbolOf Entry.definedIn
  split <;> rfl

theorem symbolOf_key (O : Elf R) (offs : Nat) (e : Entry) (index : Nat) :
    (O.symbolOf offs e index).key = (e, index) := by
  unfold Elf.symbolOf
  split <;> rfl

theorem foldl_defined (O : Elf R) (i : Nat) (l : List (Entry × Nat)) (st : Reading) :
    ((l.foldl O.readSymbol st).symbols.filter fun sym => sym.sec = some i).map Symbol.key =
      (st.symbols.filter fun sym => sym.sec = some i).map Symbol.key ++
        l.filter fun p => !p.1.debug && p.1.definedIn O = some i := by
  induction l generalizing st with
  | nil => simp
  | cons p l ih =>
    obtain ⟨e, index⟩ := p
    rw [List.foldl_cons, ih]
    cases hd : e.debug with
    | true => simp [Elf.readSymbol_debug hd, hd]
    | false =>
      rw [Elf.readSymbol_symbols hd, List.filter_append]
      by_cases hin : e.definedIn O = some i
      · simp [symbolOf_sec, symbolOf_key, hin, hd]
      · simp [symbolOf_sec, hin, hd]

/-- The symbols that were read with a section are those defined in it. -/
theorem readAll_defined (O : Elf R) (i : Nat) :
    (O.readAll.symbols.filter fun sym => sym.sec = some i).map Symbol.key = O.defined i := by
  simpa [Elf.readAll, Elf.defined] using foldl_defined O i O.symbols.zipIdx {}

theorem mem_defined {i : Nat} {sym : Symbol} (hsym : sym ∈ O.readAll.symbols)
    (hsec : sym.sec = some i) : sym.key ∈ O.defined i := by
  rw [← readAll_defined]
  exact List.mem_map_of_mem (List.mem_filter.2 ⟨hsym, decide_eq_true hsec⟩)

theorem mem_defined_iff {i : Nat} :
    (∃ p, p ∈ O.defined i) ↔ ∃ e ∈ O.symbols, e.debug = false ∧ e.definedIn O = some i := by
  constructor
  · intro ⟨p, hp⟩
    obtain ⟨hp, hdef⟩ := List.mem_filter.1 hp
    refine ⟨p.1, (List.mem_zipIdx' hp).2 ▸ List.getElem_mem _, ?_⟩
    simpa using hdef
  · intro ⟨e, he, hdebug, hdef⟩
    obtain ⟨index, hlt, rfl⟩ := List.getElem_of_mem he
    refine ⟨(O.symbols[index], index), List.mem_filter.2 ⟨?_, by simp [hdebug, hdef]⟩⟩
    exact List.mem_zipIdx_iff_getElem?.2 (List.getElem?_eq_getElem hlt)

theorem definedIn_le {e : Entry} (he : e ∈ O.symbols) {i : Nat} (h : e.definedIn O = some i) :
    i ≤ O.commonSec := by
  unfold Entry.definedIn at h
  split at h
  · exact Nat.le_of_eq (Option.some.inj h).symm
  · exact Nat.le_of_lt (O.sec_lt e he i h)

theorem names_get {i : Nat} (hi : i ≤ O.commonSec) : ∃ name, O.names[i]? = some name := by
  refine ⟨_, List.getElem?_eq_getElem ?_⟩
  simpa [Elf.names, Elf.commonSec, Nat.lt_succ_iff] using hi

theorem names_lt {i : Nat} {name : Name} (h : O.names[i]? = some name) : i ≤ O.commonSec := by
  have hlt := (List.getElem?_eq_some_iff.1 h).1
  simpa [Elf.names, Elf.commonSec, Nat.lt_succ_iff] using hlt

theorem mem_take_names {i : Nat} {name : Name} :
    name ∈ O.names.take i ↔ ∃ j < i, O.names[j]? = some name := by
  simp [List.mem_iff_getElem?, List.getElem?_take]

/-- The symbols by name are those by section. -/
theorem symbols_iff (O : Elf R) (srt : Sorter) :
    (∀ (i : Nat) (name : Name), O.names[i]? = some name →
      ((if name ∈ O.names.take i then []
        else srt.sort (O.readAll.symbols.filter fun sym => O.nameOf sym = some name)).map
          Symbol.key).Perm (O.defined i)) ↔
      ∀ i j, i < j → O.names[i]? = O.names[j]? → ∀ e ∈ O.symbols,
        e.debug = false → e.definedIn O ≠ some j := by
  constructor
  · intro h i j hij hname e he hdebug hdef
    obtain ⟨name, hj⟩ := names_get (definedIn_le he hdef)
    have hperm := h j name hj
    rw [if_pos (mem_take_names.2 ⟨i, hij, hname.trans hj⟩), List.map_nil] at hperm
    obtain ⟨p, hp⟩ := mem_defined_iff.2 ⟨e, he, hdebug, hdef⟩
    rw [hperm.symm.eq_nil] at hp
    cases hp
  · intro h i name hi
    split
    next htake =>
      -- a section before it has the name
      obtain ⟨j, hj, hname⟩ := mem_take_names.1 htake
      have hnone : O.defined i = [] := List.eq_nil_iff_forall_not_mem.2 fun p hp =>
        have ⟨e, he, hdebug, hdef⟩ := mem_defined_iff.1 ⟨p, hp⟩
        h j i hj (hname.trans hi.symm) e he hdebug hdef
      rw [hnone]
      exact .nil
    next htake =>
      have hfilter : O.readAll.symbols.filter (fun sym => O.nameOf sym = some name) =
          O.readAll.symbols.filter fun sym => sym.sec = some i := by
        refine List.filter_congr fun sym hsym => ?_
        rw [Bool.eq_iff_iff, decide_eq_true_iff, decide_eq_true_iff]
        constructor
        · intro hname
          obtain ⟨j, hsec, hj⟩ := Option.bind_eq_some_iff.1 hname
          rcases Nat.lt_trichotomy j i with hlt | rfl | hlt
          · exact absurd (mem_take_names.2 ⟨j, hlt, hj⟩) htake
          · exact hsec
          · obtain ⟨e, he, hdebug, hdef⟩ := mem_defined_iff.1 ⟨_, mem_defined hsym hsec⟩
            exact absurd hdef (h i j hlt (hi.trans hj.symm) e he hdebug)
        · intro hsec
          rw [Elf.nameOf, hsec, Option.bind_some, hi]
      rw [hfilter, ← readAll_defined]
      exact (srt.perm _).map _

/-! ### Relocations -/

theorem hits_iff {h : Header R} {i : Nat} {name : Name} (hi : O.names[i]? = some name) :
    h.hits O.sectionByName i =
      (!decide (name ∈ O.names.drop (i + 1)) && (!decide h.isDebug && h.target = name)) := by
  have hname : O.sectionByName h.target = some i ↔
      name ∉ O.names.drop (i + 1) ∧ h.target = name := by
    rw [Elf.sectionByName_eq, hi, Option.some.injEq]
    constructor
    · rintro ⟨rfl, hlast⟩
      exact ⟨hlast, rfl⟩
    · rintro ⟨hlast, rfl⟩
      exact ⟨rfl, hlast⟩
  rw [Header.hits, decide_eq_decide.2 hname, Bool.decide_and, decide_not, Bool.and_left_comm]

/-- The last header that names a section sets its relocations. -/
theorem section_relocs (O : Elf R) (srt : Sorter) {i : Nat} {name : Name}
    (hi : O.names[i]? = some name) :
    (O.readSymbols srt).sections[i]?.map Section.relocs = some
      (if name ∈ O.names.drop (i + 1) then []
        else ((O.namers name).getLast?.map Header.relocs).getD []) := by
  rw [Elf.readSymbols, foldl_attach_relocs, Elf.setSymbols_get, List.getElem?_map, hi]
  simp only [Option.map_some, hits_iff hi, Elf.namers]
  by_cases hlast : name ∈ O.names.drop (i + 1)
  · simp [hlast]
  · simp [hlast]

/-! ### Sections -/

/-- What a section holds, by its name. -/
theorem section_get (O : Elf R) (srt : Sorter) {i : Nat} {name : Name}
    (hi : O.names[i]? = some name) :
    ∃ s, (O.readSymbols srt).sections[i]? = some s ∧
      (s.symbols = if name ∈ O.names.take i then []
        else srt.sort (O.readAll.symbols.filter fun sym => O.nameOf sym = some name)) ∧
      s.relocs = if name ∈ O.names.drop (i + 1) then []
        else ((O.namers name).getLast?.map Header.relocs).getD [] := by
  have hsyms := section_symbols O srt i
  rw [hi, Option.map_some] at hsyms
  obtain ⟨s, hs, hsyms⟩ := Option.map_eq_some_iff.1 hsyms
  have hrelocs := section_relocs O srt hi
  rw [hs, Option.map_some, Option.some.injEq] at hrelocs
  exact ⟨s, hs, hsyms, hrelocs⟩

/-- Attachment works just for such orders and names. -/
theorem attached_iff (O : Elf R) (srt : Sorter) :
    Attached O (O.readSymbols srt) ↔ Ordered O := by
  constructor
  · intro h
    constructor
    · refine (symbols_iff O srt).1 fun i name hi => ?_
      obtain ⟨s, hs, hsyms, -⟩ := section_get O srt hi
      obtain ⟨s', hs', hto⟩ := h i (names_lt hi)
      obtain rfl := Option.some.inj (hs.symm.trans hs')
      rw [← hsyms]
      exact hto.symbols
    · intro i name hi
      obtain ⟨s, hs, -, hrelocs⟩ := section_get O srt hi
      obtain ⟨s', hs', hto⟩ := h i (names_lt hi)
      obtain rfl := Option.some.inj (hs.symm.trans hs')
      exact hto.relocs.symm.trans hrelocs
  · intro h i hle
    obtain ⟨name, hi⟩ := names_get hle
    obtain ⟨s, hs, hsyms, hrelocs⟩ := section_get O srt hi
    refine ⟨s, hs, ⟨?_, ?_, hrelocs.trans (h.relocs i name hi).symm⟩⟩
    · rw [hsyms]
      exact (symbols_iff O srt).2 h.symbols i name hi
    · rw [hsyms]
      split
      · exact .nil
      · exact srt.sorted _

/-! ### Another order of the headers -/

def Header.move (π : Equiv.Perm Nat) (h : Header R) : Header R where
  name := h.name
  applies := h.applies.map π
  relocs := h.relocs
  only hnone := h.only (Option.map_eq_none_iff.1 hnone)

def Entry.move (π : Equiv.Perm Nat) (e : Entry) : Entry := {e with sec := e.sec.map π}

/-- The same object with its headers in another order. -/
structure Reordered (π : Equiv.Perm Nat) (O O' : Elf R) : Prop where
  length : O'.headers.length = O.headers.length
  fixed : ∀ i, O.headers.length ≤ i → π i = i
  headers : ∀ i, O'.headers[π i]? = O.headers[i]?.map (Header.move π)
  symbols : O'.symbols = O.symbols.map (Entry.move π)

/-- Each section holds the same symbols and the same relocations. -/
def SameAttachment (π : Equiv.Perm Nat) (O : Elf R) (r r' : Read R) : Prop :=
  ∀ i ≤ O.commonSec, ∃ s s', r.sections[i]? = some s ∧ r'.sections[π i]? = some s' ∧
    (s'.symbols.map Symbol.index).Perm (s.symbols.map Symbol.index) ∧ s'.relocs = s.relocs

theorem move_definedIn (h : Reordered π O O') (e : Entry) :
    (e.move π).definedIn O' = (e.definedIn O).map π := by
  unfold Entry.definedIn Entry.move Elf.commonSec
  split
  · rw [Option.map_some, h.length, h.fixed _ (Nat.le_refl _)]
  · rfl

theorem reordered_defined (h : Reordered π O O') (i : Nat) :
    (O'.defined (π i)).map Prod.snd = (O.defined i).map Prod.snd := by
  have hpred (e : Entry) : (!(e.move π).debug && decide ((e.move π).definedIn O' = some (π i))) =
      (!e.debug && decide (e.definedIn O = some i)) := by
    rw [move_definedIn h]
    refine congrArg (!e.debug && ·) (decide_eq_decide.2 ?_)
    rw [← Option.map_some, (Option.map_injective π.injective).eq_iff]
  rw [Elf.defined, h.symbols, List.zipIdx_map, List.filter_map, List.map_map]
  refine congrArg (List.map Prod.snd) (List.filter_congr fun p _ => hpred p.1)

theorem relocsOf_eq {i j : Nat} {h : Header R} (hj : O.headers[j]? = some h)
    (happlies : h.applies = some i) : O.relocsOf i = h.relocs := by
  unfold Elf.relocsOf
  cases hfind : O.headers.find? fun h => h.applies = some i with
  | none =>
    have hne := List.find?_eq_none.1 hfind h (List.mem_of_getElem? hj)
    exact absurd (decide_eq_true happlies) hne
  | some h' =>
    obtain ⟨k, hk⟩ := List.mem_iff_getElem?.1 (List.mem_of_find?_eq_some hfind)
    have hfound := List.find?_some hfind
    have happlies' : h'.applies = some i := of_decide_eq_true hfound
    obtain rfl := O.applies_one j k h h' hj hk (happlies.trans happlies'.symm) (by simp [happlies])
    rw [Option.some.inj (hj.symm.trans hk)]
    rfl

theorem relocsOf_nil {i : Nat} (h : ∀ h ∈ O.headers, h.applies ≠ some i) : O.relocsOf i = [] := by
  have hfind : (O.headers.find? fun h => h.applies = some i) = none :=
    List.find?_eq_none.2 fun h' hmem => by simpa using h h' hmem
  rw [Elf.relocsOf, hfind]
  rfl

theorem reordered_relocs (h : Reordered π O O') (i : Nat) : O'.relocsOf (π i) = O.relocsOf i := by
  by_cases happlies : ∃ (j : Nat) (hd : Header R), O.headers[j]? = some hd ∧ hd.applies = some i
  · obtain ⟨j, hd, hj, happlies⟩ := happlies
    have hj' : O'.headers[π j]? = some (hd.move π) := by rw [h.headers, hj, Option.map_some]
    have happlies' : (hd.move π).applies = some (π i) := congrArg (Option.map π) happlies
    rw [relocsOf_eq hj happlies, relocsOf_eq hj' happlies', Header.move]
  · have hnone : ∀ hd ∈ O.headers, hd.applies ≠ some i := fun hd hmem heq =>
      have ⟨j, hj⟩ := List.mem_iff_getElem?.1 hmem
      happlies ⟨j, hd, hj, heq⟩
    have hnone' : ∀ hd ∈ O'.headers, hd.applies ≠ some (π i) := by
      intro hd' hmem heq
      obtain ⟨j', hj'⟩ := List.mem_iff_getElem?.1 hmem
      obtain ⟨j, rfl⟩ := π.surjective j'
      rw [h.headers] at hj'
      obtain ⟨hd, hj, rfl⟩ := Option.map_eq_some_iff.1 hj'
      obtain ⟨k, hk, hki⟩ := Option.map_eq_some_iff.1 heq
      obtain rfl := π.injective hki
      exact happlies ⟨j, hd, hj, hk⟩
    rw [relocsOf_nil hnone, relocsOf_nil hnone']

theorem same_of_attached {r r' : Read R} (h : Reordered π O O') (ha : Attached O r)
    (ha' : Attached O' r') : SameAttachment π O r r' := by
  intro i hi
  have hi' : π i ≤ O'.commonSec := by
    rcases Nat.lt_or_eq_of_le hi with hlt | rfl
    · have hget := h.headers i
      rw [List.getElem?_eq_getElem hlt, Option.map_some] at hget
      exact Nat.le_of_lt (List.getElem?_eq_some_iff.1 hget).1
    · exact Nat.le_of_eq ((h.fixed _ (Nat.le_refl _)).trans h.length.symm)
  obtain ⟨s, hs, hto⟩ := ha i hi
  obtain ⟨s', hs', hto'⟩ := ha' (π i) hi'
  refine ⟨s, s', hs, hs', ?_, ?_⟩
  · have hperm := hto.symbols.map Prod.snd
    have hperm' := hto'.symbols.map Prod.snd
    rw [List.map_map] at hperm hperm'
    rw [reordered_defined h] at hperm'
    exact hperm'.trans hperm.symm
  · rw [hto'.relocs, hto.relocs, reordered_relocs h]

/-- Attachment works, and is the same, in both orders of the headers just when each of them is
such an order. -/
theorem attached_reordered_iff (srt : Sorter) (h : Reordered π O O') :
    (Attached O (O.readSymbols srt) ∧ Attached O' (O'.readSymbols srt) ∧
      SameAttachment π O (O.readSymbols srt) (O'.readSymbols srt)) ↔ Ordered O ∧ Ordered O' := by
  rw [← attached_iff O srt, ← attached_iff O' srt]
  exact ⟨fun ha => ⟨ha.1, ha.2.1⟩, fun ha => ⟨ha.1, ha.2, same_of_attached h ha.1 ha.2⟩⟩

/-- To each section at most one header applies, if that is so of any two. -/
theorem applies_one_of_pairwise {hs : List (Header R)}
    (hpair : hs.Pairwise fun h h' => h.applies = none ∨ h.applies ≠ h'.applies)
    (i j : Nat) (h h' : Header R) (hi : hs[i]? = some h) (hj : hs[j]? = some h')
    (heq : h.applies = h'.applies) (hne : h.applies ≠ none) : i = j := by
  have hpair' := List.pairwise_iff_getElem.1 hpair
  obtain ⟨hilt, rfl⟩ := List.getElem?_eq_some_iff.1 hi
  obtain ⟨hjlt, rfl⟩ := List.getElem?_eq_some_iff.1 hj
  rcases Nat.lt_trichotomy i j with hlt | heq' | hlt
  · exact (hpair' i j hilt hjlt hlt).elim (absurd · hne) (absurd heq ·)
  · exact heq'
  · exact (hpair' j i hjlt hilt hlt).elim (absurd · (heq ▸ hne)) (absurd heq.symm ·)

def data : Header Nat := {name := ".data".toList}

def text : Header Nat := {name := ".text".toList}

def relaText (sec : Nat) : Header Nat :=
  {name := ".rela.text".toList, applies := some sec, relocs := [0], only := nofun}

/-- One symbol, in the second section. -/
def dataText : Elf Nat where
  headers := [data, text, relaText 1]
  symbols := [{sec := some 1}]
  sec_lt e he i hsec := by
    obtain rfl := List.mem_singleton.1 he
    obtain rfl := Option.some.inj hsec
    decide
  applies_lt h hmem i happlies := by
    obtain rfl | rfl | rfl : h = data ∨ h = text ∨ h = relaText 1 := by simpa using hmem
    · cases happlies
    · cases happlies
    · exact Option.some.inj happlies ▸ (by decide : 1 < 3)
  applies_one := applies_one_of_pairwise
    (.cons (fun _ _ => .inl rfl) (.cons (fun _ _ => .inl rfl) (List.pairwise_singleton _ _)))

/-- The same with the sections exchanged. -/
def textData : Elf Nat where
  headers := [text, data, relaText 0]
  symbols := [{sec := some 0}]
  sec_lt e he i hsec := by
    obtain rfl := List.mem_singleton.1 he
    obtain rfl := Option.some.inj hsec
    decide
  applies_lt h hmem i happlies := by
    obtain rfl | rfl | rfl : h = text ∨ h = data ∨ h = relaText 0 := by simpa using hmem
    · cases happlies
    · cases happlies
    · exact Option.some.inj happlies ▸ (by decide : 0 < 3)
  applies_one := applies_one_of_pairwise
    (.cons (fun _ _ => .inl rfl) (.cons (fun _ _ => .inl rfl) (List.pairwise_singleton _ _)))

theorem dataText_length : dataText.headers.length = 3 := rfl

theorem textData_length : textData.headers.length = 3 := rfl

theorem dataText_reordered : Reordered (Equiv.swap 0 1) dataText textData where
  length := textData_length.trans dataText_length.symm
  fixed i hi := by
    have hi3 : 3 ≤ i := hi
    exact Equiv.swap_apply_of_ne_of_ne (by omega) (by omega)
  headers
    | 0 => rfl
    | 1 => rfl
    | 2 => rfl
    | i + 3 => by
      rw [Equiv.swap_apply_of_ne_of_ne (by omega) (by omega)]
      rfl
  symbols := rfl

theorem dataText_ordered : Ordered dataText where
  symbols i j hij hname e he hdebug hdef := by
    obtain rfl := List.mem_singleton.1 he
    obtain rfl := Option.some.inj hdef
    obtain rfl : i = 0 := by omega
    exact absurd hname (by decide)
  relocs
    | 0, _, rfl => rfl
    | 1, _, rfl => rfl
    | 2, _, rfl => rfl
    | 3, _, rfl => rfl
    | i + 4, _, h => nomatch h

theorem textData_ordered : Ordered textData where
  symbols i j hij hname e he hdebug hdef := by
    obtain rfl := List.mem_singleton.1 he
    obtain rfl := Option.some.inj hdef
    omega
  relocs
    | 0, _, rfl => rfl
    | 1, _, rfl => rfl
    | 2, _, rfl => rfl
    | 3, _, rfl => rfl
    | i + 4, _, h => nomatch h

theorem dataText_attached : Attached dataText (dataText.readSymbols byAddress) ∧
    Attached textData (textData.readSymbols byAddress) ∧
      SameAttachment (Equiv.swap 0 1) dataText (dataText.readSymbols byAddress)
        (textData.readSymbols byAddress) :=
  (attached_reordered_iff byAddress dataText_reordered).2 ⟨dataText_ordered, textData_ordered⟩

/-- The relocations of `.text` before `.text`, that is a header without any. -/
def relaFirst : Elf Nat where
  headers := [relaText 1, text]
  symbols := []
  sec_lt _ he := nomatch he
  applies_lt h hmem i happlies := by
    obtain rfl | rfl : h = relaText 1 ∨ h = text := by simpa using hmem
    · exact Option.some.inj happlies ▸ (by decide : 1 < 2)
    · cases happlies
  applies_one := applies_one_of_pairwise
    (.cons (fun h hmem => .inr (List.mem_singleton.1 hmem ▸ nofun)) (List.pairwise_singleton _ _))

/-- They are lost. -/
theorem relaFirst_lost : ¬ Attached relaFirst (relaFirst.readSymbols byAddress) := fun h => by
  obtain ⟨s, hs, hto⟩ := h 1 (by decide)
  obtain rfl := Option.some.inj hs
  exact nomatch hto.relocs

end RiscvSbt.Object
