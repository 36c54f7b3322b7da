import RiscvSbt.Caller.Convention
import RiscvSbt.Dispatch.Imports
import RiscvSbt.Library.Switch

/-! What the icaller calls.

Behind any run, the icaller has a case for each function that is alive, and these do not take the
targets of each other. A function of the guest is called as the LLVM function that holds its code,
an imported one with the arguments that a direct call would pass. -/
namespace RiscvSbt.Dispatch
open Library Context
open Block (FnId)
open Caller (FuncType Guest Conforms convention callICaller wordArgs)
open Relocation (Import)

/-- The words of an imported function fit in the icaller's arguments. -/
def Short (lc : Option LcModule) (t : Translator) : Prop :=
  ∀ o obj ft, t.c.s.objs o = some obj → FIRST_EXT_FUNC_ADDR ≤ obj.addr → obj.name ≠ "main" →
    lc.bind (·.getFunction obj.name) = some ft → wordArgs false ft.params ≤ Translator.icArgs

variable {p : Program} {lc : Option LcModule} {t t' t₁ t₂ t₃ : Translator} {obj : Obj} {o a : Nat}
  {func xfunc : String} {sw : List (BitVec 32 × Translator.Case)}

/-! ### The switch -/

namespace Sound

/-- A function that is alive is found by its address, which is a word. -/
theorem alive_iff (h : Sound p lc t) : (∃ obj, t.c.s.objs o = some obj ∧ obj.addr = a) ↔
    (a, o) ∈ t.c.s.funcByAddr.data := by
  rw [← Map.get?_eq_some]
  exact (h.faithful.ident.byAddr a o).symm

theorem addr_lt (h : Sound p lc t) (hfew : t.extFuncAddr ≤ 2 ^ 32) (ho : t.c.s.objs o = some obj) :
    obj.addr < 2 ^ 32 := by
  rcases h.objs o obj ho with hlow | himp
  · exact lt_trans hlow (by decide)
  · exact lt_of_lt_of_le himp.last hfew

theorem codes (h : Sound p lc t) (hfew : t.extFuncAddr ≤ 2 ^ 32) :
    (t.c.s.funcByAddr.data.map fun x => BitVec.ofNat 32 x.1).Nodup := by
  have hlt : ∀ x ∈ t.c.s.funcByAddr.data, x.1 < 2 ^ 32 := fun x hx => by
    obtain ⟨obj, ho, haddr⟩ := h.alive_iff.mpr hx
    exact haddr ▸ h.addr_lt hfew ho
  refine List.pairwise_map.mpr (t.c.s.funcByAddr.sorted.imp_of_mem fun {x y} hx hy hxy heq => ?_)
  have hnat := congrArg BitVec.toNat heq
  rw [BitVec.toNat_ofNat, BitVec.toNat_ofNat, Nat.mod_eq_of_lt (hlt x hx),
    Nat.mod_eq_of_lt (hlt y hy)] at hnat
  exact absurd hnat (ne_of_lt hxy)

end Sound

/-- What a case is made of. -/
def Translator.Of (t : Translator) (x : Nat × Nat) (q : Translator.Case) : Prop :=
  ∃ obj, t.c.s.objs x.2 = some obj ∧ obj.addr = x.1 ∧ t.case obj = .ok q

namespace Sound

/-- Each function that is alive has a case. -/
theorem switch (h : Sound p lc t) (hc : t.genICaller = .ok sw) :
    Cases (BitVec.ofNat 32) t.Of t.c.s.funcByAddr.data sw := by
  refine (mapM_rows hc).imp fun x q hq => ?_
  obtain ⟨hx, hq⟩ := hq
  obtain ⟨obj, ho, haddr⟩ := h.alive_iff.mpr hx
  obtain ⟨obj', ho', hq⟩ := bind_ok hq
  obtain rfl := Option.some.inj (ho.symm.trans (live_ok ho'))
  obtain ⟨q', hcase, hq⟩ := bind_ok hq
  obtain rfl := Except.ok.inj hq
  exact ⟨by rw [haddr], obj, ho, haddr, hcase⟩

/-- **The case of a function** that is alive. -/
theorem lookup (h : Sound p lc t) (hfew : t.extFuncAddr ≤ 2 ^ 32) (hc : t.genICaller = .ok sw)
    (ho : t.c.s.objs o = some obj) :
    ∃ q, sw.lookup (BitVec.ofNat 32 obj.addr) = some q ∧ t.case obj = .ok q := by
  have hx := h.alive_iff.mp ⟨obj, ho, rfl⟩
  obtain ⟨q, hq, obj', ho', -, hcase⟩ := (h.switch hc).lookup (h.codes hfew) hx
  obtain rfl := Option.some.inj (ho.symm.trans ho')
  exact ⟨q, hq, hcase⟩

/-! ### Cases -/

theorem case_internal (h : Sound p lc t) (ho : t.c.s.objs o = some obj) (hmain : obj.name ≠ "main")
    (hlow : obj.addr < FIRST_EXT_FUNC_ADDR) : ∃ f, obj.f = some f ∧ t.case obj = .ok (.call f) := by
  obtain ⟨f, hf⟩ := Option.isSome_iff_exists.mp (h.born o obj ho)
  refine ⟨f, hf, ?_⟩
  unfold Translator.case isExternalFunc
  rw [if_neg hmain, hf]
  dsimp only
  rw [decide_eq_false (Nat.not_le.mpr hlow)]
  rfl

theorem case_external (h : Sound p lc t) (ho : t.c.s.objs o = some obj) (hmain : obj.name ≠ "main")
    (hhigh : FIRST_EXT_FUNC_ADDR ≤ obj.addr) :
    ∃ ft, lc.bind (·.getFunction obj.name) = some ft ∧
      t.case obj = if Translator.icArgs < wordArgs false ft.params then
        .error "past the end of the arguments" else .ok (.external obj.name ft) := by
  obtain ⟨f, hf⟩ := Option.isSome_iff_exists.mp (h.born o obj ho)
  obtain ⟨f', hget, hft, -⟩ := ((h.objs o obj ho).resolve_left (Nat.not_lt.mpr hhigh)).fn
  -- The object has the module's function.
  obtain rfl : f = f' := Option.some.inj ((h.faithful.ident.fn o obj f ho hf).symm.trans hget)
  refine ⟨t.types f, hft, ?_⟩
  unfold Translator.case isExternalFunc
  rw [if_neg hmain, hf]
  dsimp only
  rw [decide_eq_true hhigh]
  rfl

/-- The icaller is made if its arguments suffice. -/
theorem made_iff (h : Sound p lc t) : (∃ sw, t.genICaller = .ok sw) ↔ Short lc t := by
  unfold Translator.genICaller
  rw [mapM_ok_iff]
  constructor
  · intro hall o obj ft ho hhigh hmain hft
    obtain ⟨q, hq⟩ := hall _ (h.alive_iff.mp ⟨obj, ho, rfl⟩)
    obtain ⟨obj', ho', hq⟩ := bind_ok hq
    obtain rfl := Option.some.inj (ho.symm.trans (live_ok ho'))
    obtain ⟨q', hcase, -⟩ := bind_ok hq
    obtain ⟨ft', hft', heq⟩ := h.case_external ho hmain hhigh
    obtain rfl := Option.some.inj (hft.symm.trans hft')
    by_contra hlt
    rw [heq, if_pos (Nat.not_le.mp hlt)] at hcase
    cases hcase
  · intro hshort x hx
    obtain ⟨obj, ho, -⟩ := h.alive_iff.mpr hx
    suffices hcase : ∃ q, t.case obj = .ok q by
      obtain ⟨q, hcase⟩ := hcase
      refine ⟨(BitVec.ofNat 32 obj.addr, q), ?_⟩
      unfold State.live
      rw [ho]
      show t.case obj >>= _ = _
      rw [hcase]
      rfl
    by_cases hmain : obj.name = "main"
    · refine ⟨.dfl, ?_⟩
      unfold Translator.case
      rw [if_pos hmain]
      rfl
    · rcases Nat.lt_or_ge obj.addr FIRST_EXT_FUNC_ADDR with hlow | hhigh
      · obtain ⟨f, -, hcase⟩ := h.case_internal ho hmain hlow
        exact ⟨_, hcase⟩
      · obtain ⟨ft, hft, hcase⟩ := h.case_external ho hmain hhigh
        rw [if_neg (Nat.not_lt.mpr (hshort _ obj ft ho hhigh hmain hft))] at hcase
        exact ⟨_, hcase⟩

/-! ### Targets -/

section Targets
variable (h : Sound p lc t) (hfew : t.extFuncAddr ≤ 2 ^ 32) (hc : t.genICaller = .ok sw)
include h hfew hc

theorem unknown (g : Guest) (args : List (BitVec 32)) {w : BitVec 32}
    (hw : t.c.s.funcByAddr.get? w.toNat = none) : icaller sw g args w = .ok .abort := by
  have hnone : sw.lookup w = none := (h.switch hc).lookup_none fun x hx heq => by
    obtain ⟨obj, ho, haddr⟩ := h.alive_iff.mpr hx
    have hlt : x.1 < 2 ^ 32 := haddr ▸ h.addr_lt hfew ho
    rw [← heq, BitVec.toNat_ofNat, Nat.mod_eq_of_lt hlt, Map.get?_eq_some.mpr hx] at hw
    cases hw
  unfold icaller
  rw [hnone]
  rfl

theorem external {ft : FuncType} (ho : t.c.s.objs o = some obj)
    (hhigh : FIRST_EXT_FUNC_ADDR ≤ obj.addr) (hmain : obj.name ≠ "main")
    (hft : lc.bind (·.getFunction obj.name) = some ft) (hconf : Conforms false ft) (g : Guest) :
    ∃ retref, icaller sw g (callICaller g) (BitVec.ofNat 32 obj.addr) =
      .ok (.external obj.name retref (convention false g ft)) := by
  obtain ⟨ft', hft', hcase⟩ := h.case_external ho hmain hhigh
  obtain rfl := Option.some.inj (hft.symm.trans hft')
  obtain ⟨q, hq, hcase'⟩ := h.lookup hfew hc ho
  rw [if_neg (Nat.not_lt.mpr (h.made_iff.mp ⟨sw, hc⟩ o obj ft ho hhigh hmain hft))] at hcase
  obtain rfl := Except.ok.inj (hcase.symm.trans hcase')
  obtain ⟨retref, hic⟩ := hconf.indirect rfl g _ _ _ rfl
  rw [(hconf.direct g _ _ _ rfl).1] at hic
  refine ⟨retref, ?_⟩
  unfold icaller
  rw [hq]
  show (Caller.genICaller g ft (callICaller g) >>= _) = _
  rw [hic]
  rfl

end Targets
end Sound

/-! ### Which is external -/

/-- The function of an import is alive. -/
theorem Sound.answered (h : Sound p lc t) (hi : t.import_ lc func = .ok ((.func a, xfunc), t')) :
    xfunc = subst func ∧ ∃ o obj, t'.c.s.objs o = some obj ∧ obj.name = xfunc ∧ obj.addr = a := by
  rcases import_cases hi with
    ⟨o, obj, hget, ho, hr, rfl⟩ | ⟨-, -, hr, -⟩ | ⟨ft, hnone, hft, hlt, hr, rfl⟩
  · obtain ⟨rfl, rfl⟩ : a = obj.addr ∧ xfunc = subst func := by simpa using hr
    obtain ⟨obj', ho', hname⟩ := h.faithful.ident.byName.row hget
    obtain rfl := Option.some.inj (ho.symm.trans ho')
    exact ⟨rfl, o, obj, ho, hname, rfl⟩
  · cases hr
  · obtain ⟨rfl, rfl⟩ : a = t.extFuncAddr ∧ xfunc = subst func := by simpa using hr
    obtain ⟨h', -⟩ := h.declare hnone hft hlt
    have hbyName : (t.declare (subst func) ft).c.s.func.get? (subst func) =
        some (t.c.s.create (subst func)).2.nextObj := Map.get?_upsert_self _ _ _
    have hbyAddr : (t.declare (subst func) ft).c.s.funcByAddr.get? t.extFuncAddr =
        some (t.c.s.create (subst func)).2.nextObj := Map.get?_upsert_self _ _ _
    obtain ⟨obj, ho, hname⟩ := h'.faithful.ident.byName.row hbyName
    obtain ⟨obj', ho', haddr⟩ := h'.faithful.ident.byAddr.row hbyAddr
    obtain rfl := Option.some.inj (ho.symm.trans ho')
    exact ⟨rfl, _, obj, ho, hname, haddr⟩

/-- A function that is alive is answered without an import. -/
theorem Sound.known (h : Sound p lc t) (ho : t.c.s.objs o = some obj)
    (hname : obj.name = subst func) :
    t.import_ lc func = .ok ((.func obj.addr, subst func), t) := by
  have hget : t.c.s.func.get? (subst func) = some o := hname ▸ h.faithful.ident.byName.find ho
  unfold Translator.import_ State.live
  dsimp only
  rw [hget]
  dsimp only
  rw [ho]
  rfl

/-- **Imports are stable and distinct.** However the translation goes on, a function that was
imported is answered with its address again, and no other one is. -/
theorem imports_stable (p : Program) (lc : Option LcModule) (pending : Map Nat Block.PendingReloc)
    (sections : String → List Block.Constant) (hp : p.Aligned) (hlow : Low p)
    (t₁ t₂ t₃ : Translator)
    (func xfunc : String) (a : Nat) (h₁ : Served p lc (.init pending sections) t₁)
    (hi : t₁.import_ lc func = .ok ((.func a, xfunc), t₂)) (h₃ : Served p lc t₂ t₃) :
    t₃.import_ lc func = .ok ((.func a, xfunc), t₃) ∧
      (∀ o obj, t₃.c.s.objs o = some obj → obj.addr = a → obj.name = xfunc) ∧
      ∀ func' xfunc' t₄, t₃.import_ lc func' = .ok ((.func a, xfunc'), t₄) → xfunc' = xfunc := by
  obtain ⟨hs₁, -⟩ := h₁.sound hp hlow (.init pending sections)
  obtain ⟨hs₂, -⟩ := hs₁.import_ hi
  obtain ⟨hs₃, hgrown⟩ := h₃.sound hp hlow hs₂
  obtain ⟨rfl, o₂, obj₂, ho₂, hname₂, haddr₂⟩ := hs₁.answered hi
  obtain ⟨o, obj, ho, hplace, -⟩ := hgrown o₂ obj₂ ho₂
  have hname : obj.name = subst func := (congrArg Place.name hplace).trans hname₂
  have haddr : obj.addr = a := (congrArg Place.addr hplace).trans haddr₂
  refine ⟨haddr ▸ hs₃.known ho hname, fun o' obj' ho' haddr' => ?_, fun func' xfunc' t₄ hi' => ?_⟩
  · obtain rfl := hs₃.faithful.ident.byAddr.inj ho' ho (haddr'.trans haddr.symm)
    obtain rfl := Option.some.inj (ho.symm.trans ho')
    exact hname
  · obtain ⟨hs₄, hgrown'⟩ := hs₃.import_ hi'
    obtain ⟨-, o', obj', ho', hname', haddr'⟩ := hs₃.answered hi'
    obtain ⟨o'', obj'', ho'', hplace', -⟩ := hgrown' o obj ho
    have heq : obj''.addr = obj'.addr :=
      (congrArg Place.addr hplace').trans (haddr.trans haddr'.symm)
    obtain rfl := hs₄.faithful.ident.byAddr.inj ho'' ho' heq
    obtain rfl := Option.some.inj (ho''.symm.trans ho')
    rw [← hname', ← hname]
    exact congrArg Place.name hplace'

/-- Steps of the translation alone. -/
theorem Served.of_run {c₀ c : Config} (h : Run (Config.step p) (Distinct p) c₀ c) (t : Translator) :
    Served p lc {t with c := c₀} {t with c := c} := by
  induction h with
  | start => exact .start
  | @step d _ _ good step ih => exact Runs.step (t := {t with c := d}) ih good step

def loneText : Program := {sections := [loneSection "a"]}

def putsType : FuncType := ⟨[.ptr], .i32⟩

/-- Both functions have one type. -/
def putsLib : LcModule where
  getFunction name := if name = "puts" ∨ name = "fflush" then some putsType else none

theorem loneText_low : loneText.Aligned ∧ Low loneText := by
  have hsec : ∀ sec ∈ loneText.sections, sec = loneSection "a" := fun sec hsec =>
    List.mem_singleton.mp hsec
  refine ⟨fun sec h sym hsym _ => ?_, fun sec h sym hsym _ => ?_, fun sec h a t ht => ?_⟩
  · obtain rfl := hsec sec h
    have hall : ∀ sym ∈ (loneSection "a").symbols, sym.addr % 4 = 0 := by decide
    exact hall sym hsym
  · obtain rfl := hsec sec h
    have hall : ∀ sym ∈ (loneSection "a").symbols, sym.addr < FIRST_EXT_FUNC_ADDR := by decide
    exact hall sym hsym
  · obtain rfl := hsec sec h
    cases ht

/-- It is translated, and then asks for the function. -/
theorem loneText_translates : ∃ t : Translator,
    Served loneText (some putsLib) (.init Map.empty fun _ => []) t ∧ t.extFuncAddr =
    FIRST_EXT_FUNC_ADDR ∧
      t.c.loop = none ∧ t.c.todo = [] ∧ t.c.next = 1 ∧
      t.c.s.func.get? "puts" = none ∧ t.c.s.func.get? "fflush" = none := by
  obtain ⟨c, hc, hP⟩ := checks_spec (P := fun c => c.loop = none ∧ c.todo = [] ∧ c.next = 1 ∧
      c.s.func.get? "puts" = none ∧ c.s.func.get? "fflush" = none)
    (show (Config.init Map.empty fun _ => []).checks loneText 4 _ = true by decide +kernel)
  have hgood : ∀ m, m < 4 → (Config.init Map.empty fun _ => []).checks loneText m
      (Config.distinct loneText) = true := by decide +kernel
  have hrun : Run (Config.step loneText) (Distinct loneText)
      (Config.init Map.empty fun _ => []) c :=
    Run.start.iterate 4 (fun m hm d hd => by
      have hmaps : Config.Reach loneText (fun _ => True) Map.empty (fun _ => []) d :=
        Run.start.iterate m (fun _ _ _ _ => trivial) hd
      obtain ⟨d', hd', ha⟩ := checks_spec (hgood m hm)
      obtain rfl := Except.ok.inj (hd.symm.trans hd')
      exact distinct_spec hmaps.maps ha) hc
  exact ⟨_, Served.of_run hrun (.init Map.empty fun _ => []), rfl, of_decide_eq_true hP⟩

theorem puts_imported {t : Translator} (h : t.c.s.func.get? "puts" = none) :
    t.import_ (some putsLib) "puts" =
    .ok ((.func t.extFuncAddr, "puts"), t.declare "puts" putsType) := by
  unfold Translator.import_
  dsimp only
  rw [show subst "puts" = "puts" by decide, h]
  rfl

theorem fflush_imported {t : Translator} (h : t.c.s.func.get? "fflush" = none) :
    t.import_ (some putsLib) "fflush" =
    .ok ((.func t.extFuncAddr, "fflush"), t.declare "fflush" putsType) := by
  unfold Translator.import_
  dsimp only
  rw [show subst "fflush" = "fflush" by decide, h]
  rfl

/-- The first function keeps its address when the other one is imported, which gets the next. -/
theorem puts_stable : ∃ t₁ t₂ t₃ : Translator,
    t₁.import_ (some putsLib) "puts" = .ok ((.func 0xFFFF0000, "puts"), t₂) ∧
      t₂.import_ (some putsLib) "fflush" = .ok ((.func 0xFFFF0004, "fflush"), t₃) ∧
      t₃.import_ (some putsLib) "puts" = .ok ((.func 0xFFFF0000, "puts"), t₃) := by
  obtain ⟨t, hrun, hext, -, -, -, hputs, hfflush⟩ := loneText_translates
  have himport := puts_imported hputs
  have hnone : (t.declare "puts" putsType).c.s.func.get? "fflush" = none := by
    have hfunc : (t.c.s.create "puts").2.func = t.c.s.func := by
      obtain ⟨f, m, n, hc⟩ := create_ok t.c.s "puts"
      rw [hc]
    show ((t.c.s.create "puts").2.func.upsert "puts" _).get? "fflush" = none
    rw [hfunc, Map.get?_upsert_of_ne (by decide)]
    exact hfflush
  have himport' := fflush_imported hnone
  obtain ⟨hknown, -⟩ := imports_stable loneText (some putsLib) Map.empty (fun _ => [])
    loneText_low.1 loneText_low.2 t _ _ "puts" _ _ hrun himport (.import_ .start himport')
  rw [show (t.declare "puts" putsType).extFuncAddr = t.extFuncAddr + 4 from rfl, hext] at himport'
  rw [hext] at himport hknown
  exact ⟨t, _, _, himport, himport', hknown⟩

/-! ### The icaller of a run -/

end RiscvSbt.Dispatch
