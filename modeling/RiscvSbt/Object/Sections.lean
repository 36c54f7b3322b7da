import RiscvSbt.Object.Machine

/-! What reading an object leaves in its sections.

The symbols of a name are those whose section has it, and the first section of the name gets
them. The relocations of a section are those of the last header that names it. -/
namespace RiscvSbt.Object

variable {R : Type} {O : Elf R} {srt : Sorter} {st : Reading} {name : Name} {i : Nat}

theorem Sorter.sort_nil (srt : Sorter) : srt.sort [] = [] := (srt.perm []).eq_nil

/-! ### Symbols by name -/

namespace Elf

/-- The name of a symbol's section. -/
def nameOf (O : Elf R) (sym : Symbol) : Option Name := sym.sec.bind (O.names[·]?)

/-- The symbol that is made of an entry. -/
def symbolOf (O : Elf R) (commonOffs : Nat) (e : Entry) (index : Nat) : Symbol :=
  if e.common then ⟨index, e, commonOffs, some O.commonSec⟩ else ⟨index, e, e.address, e.sec⟩

theorem readSymbol_debug {e : Entry} (h : e.debug = true) (index : Nat) :
    O.readSymbol st (e, index) = st := if_pos h

theorem readSymbol_symbols {e : Entry} (h : e.debug = false) (index : Nat) :
    (O.readSymbol st (e, index)).symbols =
      st.symbols ++ [O.symbolOf st.commonOffs e index] := by
  simp [readSymbol, h, symbolOf]

theorem readSymbol_offs {e : Entry} (h : e.debug = false) (index : Nat) :
    (O.readSymbol st (e, index)).commonOffs =
      if e.common then st.commonOffs + e.size else st.commonOffs := by
  simp [readSymbol, h]

theorem readSymbol_unnamed {e : Entry} (h : e.debug = false) (index : Nat)
    (hname : O.nameOf (O.symbolOf st.commonOffs e index) = none) :
    (O.readSymbol st (e, index)).sectionToSymbols = st.sectionToSymbols := by
  unfold nameOf symbolOf at hname
  simp [readSymbol, h, hname]

theorem readSymbol_named {e : Entry} (h : e.debug = false) (index : Nat) {name : Name}
    (hname : O.nameOf (O.symbolOf st.commonOffs e index) = some name) :
    (O.readSymbol st (e, index)).sectionToSymbols = Function.update st.sectionToSymbols name
      (st.sectionToSymbols name ++ [O.symbolOf st.commonOffs e index]) := by
  unfold nameOf symbolOf at hname
  simp [readSymbol, h, hname, symbolOf]

/-- A name's symbols are those whose section has it. -/
def Named (O : Elf R) (st : Reading) : Prop :=
  ∀ name, st.sectionToSymbols name = st.symbols.filter fun sym => O.nameOf sym = some name

theorem Named.readSymbol (h : O.Named st) (p : Entry × Nat) : O.Named (O.readSymbol st p) := by
  obtain ⟨e, index⟩ := p
  cases hd : e.debug with
  | true => rwa [readSymbol_debug hd]
  | false =>
    intro name
    rw [readSymbol_symbols hd, List.filter_append]
    cases hname : O.nameOf (O.symbolOf st.commonOffs e index) with
    | none => simp [readSymbol_unnamed hd index hname, h name, hname]
    | some n =>
      rw [readSymbol_named hd index hname]
      by_cases hn : n = name
      · subst hn
        simp [h n, hname]
      · have hn' : name ≠ n := fun heq => hn heq.symm
        simp [Function.update_of_ne hn', h name, hname, hn]

theorem readAll_named (O : Elf R) : O.Named O.readAll := by
  have hfold (l : List (Entry × Nat)) (st : Reading) (h : O.Named st) :
      O.Named (l.foldl O.readSymbol st) := by
    induction l generalizing st with
    | nil => exact h
    | cons p l ih => exact ih _ (h.readSymbol p)
  exact hfold _ _ fun _ => rfl

/-- The first section of a name gets its symbols. -/
theorem setSymbols_get (srt : Sorter) (secs : List (Section R)) (m : Name → List Symbol) (i : Nat) :
    (setSymbols srt secs m)[i]? = secs[i]?.map fun s =>
      {s with symbols :=
        if s.name ∈ (secs.take i).map Section.name then [] else srt.sort (m s.name)} := by
  induction secs generalizing m i with
  | nil => rfl
  | cons s secs ih =>
    cases i with
    | zero => simp [setSymbols]
    | succ i =>
      rw [setSymbols, List.getElem?_cons_succ, List.getElem?_cons_succ, ih]
      refine congrArg (secs[i]?.map ·) (funext fun t => ?_)
      by_cases hname : t.name = s.name
      · simp [hname, srt.sort_nil]
      · simp [hname]

/-! ### Relocations by name -/

theorem lastIndex (ns : List Name) (name : Name) (i : Nat) :
    ns.zipIdx.foldl (fun (m : Name → Option Nat) p => Function.update m p.1 (some p.2))
        (fun _ => none) name = some i ↔
      ns[i]? = some name ∧ name ∉ ns.drop (i + 1) := by
  induction ns using List.reverseRecOn with
  | nil => simp
  | append_singleton ns n ih =>
    rw [List.zipIdx_append, List.foldl_append]
    simp only [List.zipIdx_singleton, List.foldl_cons, List.foldl_nil, Nat.zero_add]
    by_cases hn : name = n
    · subst hn
      rw [Function.update_self, Option.some.injEq]
      constructor
      · rintro rfl
        simp
      · rintro ⟨hget, hnot⟩
        rcases Nat.lt_trichotomy ns.length i with hi | hi | hi
        · rw [List.getElem?_eq_none (by simp; omega)] at hget
          cases hget
        · exact hi
        · rw [List.drop_append_of_le_length (by omega)] at hnot
          exact absurd (List.mem_append_right _ List.mem_cons_self) hnot
    · rw [Function.update_of_ne hn, ih]
      rcases Nat.lt_or_ge i ns.length with hi | hi
      · rw [List.getElem?_append_left hi, List.drop_append_of_le_length (by omega)]
        simp [hn]
      · rw [List.getElem?_eq_none hi]
        refine iff_of_false (fun h => by cases h.1) fun h => ?_
        rcases Nat.lt_or_ge ns.length i with hlt | hge
        · rw [List.getElem?_eq_none (by simp; omega)] at h
          cases h.1
        · obtain rfl : i = ns.length := by omega
          simp at h
          exact hn h.symm

/-- A name stands for its last section. -/
theorem sectionByName_eq (O : Elf R) (name : Name) (i : Nat) :
    O.sectionByName name = some i ↔ O.names[i]? = some name ∧ name ∉ O.names.drop (i + 1) :=
  lastIndex O.names name i

end Elf

/-- A header changes no field of a section but its relocations. -/
theorem attach_keeps {β : Type} (f : Section R → β)
    (hf : ∀ (s : Section R) l, f {s with relocs := l} = f s) (byName : Name → Option Nat)
    (secs : List (Section R)) (h : Header R) (i : Nat) :
    (h.attach byName secs)[i]?.map f = secs[i]?.map f := by
  unfold Header.attach
  split
  · rfl
  · split
    · rfl
    next j _ =>
      rw [List.getElem?_modify]
      cases secs[i]? with
      | none => rfl
      | some s => by_cases hj : j = i <;> simp [hj, hf]

theorem foldl_attach_symbols (byName : Name → Option Nat) (hs : List (Header R))
    (secs : List (Section R)) (i : Nat) :
    (hs.foldl (Header.attach byName) secs)[i]?.map Section.symbols =
      secs[i]?.map Section.symbols := by
  induction hs generalizing secs with
  | nil => rfl
  | cons h hs ih => rw [List.foldl_cons, ih, attach_keeps _ fun _ _ => rfl]

/-- A header names a section, debug ones none. -/
def Header.hits (h : Header R) (byName : Name → Option Nat) (i : Nat) : Bool :=
  !decide h.isDebug && decide (byName h.target = some i)

theorem attach_relocs (byName : Name → Option Nat) (secs : List (Section R)) (h : Header R)
    (i : Nat) : (h.attach byName secs)[i]?.map Section.relocs =
      secs[i]?.map fun s => if h.hits byName i then h.relocs else s.relocs := by
  unfold Header.attach Header.hits
  by_cases hd : h.isDebug
  · simp [hd]
  · rw [if_neg hd]
    cases hname : byName h.target with
    | none => simp
    | some j =>
      rw [List.getElem?_modify]
      cases secs[i]? with
      | none => rfl
      | some s => by_cases hj : j = i <;> simp [hj, hd]

/-- The last header that names a section sets its relocations. -/
theorem foldl_attach_relocs (byName : Name → Option Nat) (hs : List (Header R))
    (secs : List (Section R)) (i : Nat) :
    (hs.foldl (Header.attach byName) secs)[i]?.map Section.relocs = secs[i]?.map fun s =>
      ((hs.filter fun h => h.hits byName i).getLast?.map Header.relocs).getD s.relocs := by
  induction hs using List.reverseRecOn with
  | nil => simp
  | append_singleton hs h ih =>
    rw [List.foldl_append, List.foldl_cons, List.foldl_nil, attach_relocs, List.filter_append]
    cases hhit : h.hits byName i with
    | true =>
      cases hleft : (hs.foldl (Header.attach byName) secs)[i]? with
      | none => cases hright : secs[i]? <;> simp [hleft, hright] at ih ⊢
      | some _ => cases hright : secs[i]? <;> simp [hleft, hright, hhit] at ih ⊢
    | false => simpa [hhit] using ih

/-- The symbols of a name, sorted, are those of its first section. -/
theorem section_symbols (O : Elf R) (srt : Sorter) (i : Nat) :
    (O.readSymbols srt).sections[i]?.map Section.symbols = O.names[i]?.map fun name =>
      if name ∈ O.names.take i then []
      else srt.sort (O.readAll.symbols.filter fun sym => O.nameOf sym = some name) := by
  rw [Elf.readSymbols, foldl_attach_symbols, Elf.setSymbols_get, List.getElem?_map]
  cases O.names[i]? with
  | none => rfl
  | some name =>
    have hnames : ((O.names.map fun name => ({name := name} : Section R)).take i).map
        Section.name = O.names.take i := by
      rw [← List.map_take, List.map_map]
      exact List.map_id _
    simp only [Option.map_some, hnames, O.readAll_named name]

end RiscvSbt.Object
