import RiscvSbt.Block.Placed
import RiscvSbt.Context.Callees
import RiscvSbt.Context.Walk

/-! The functions of a section that has been translated.

An LLVM function with blocks is `Compiled`: it holds the code of a range of instructions, and
nothing that control could leave the range by but a call or a return. The calls that were emitted
are those of the words, in their order. -/
namespace RiscvSbt.Context
open Library Block State

/-- The code of an instruction was made before anything else was. -/
def Fitted (body : Nat → Inst) (t : Block.State) : Prop :=
  ∀ i a, i < t.nextInstr → t.marks i = some a → i + (body a).ops ≤ t.nextInstr

/-- The LLVM function `f` holds the code of the instructions from `k` up to `e`. -/
def Compiled (p : Program) (k e : Nat) (f : FnId) (t : Block.State) (d : Nat → List Nat) : Prop :=
  ∃ s l s₀ pr rest, Running p s l (p.body 0) s₀ f pr ∧ l.st = k ∧ l.addr = e ∧
    s₀.layout f = [] ∧ Fitted (p.body 0) s₀ ∧ Kept (s.finish p).blk (s.finish p).dests t d ∧
    t.layout f = (s.finish p).blk.layout f ++ rest ∧ (s.finish p).blk.layout f ≠ []

/-- The range of a function, of words that have been translated. -/
structure Confined (p : Program) (passed : Nat → Prop) (k e : Nat) : Prop where
  inside : Block.Inside (p.body 0) k e
  bound : e ≤ 2 ^ 32
  passed : ∀ a, Past k e a → passed a

structure Populated (p : Program) (passed : Nat → Prop) (t : Block.State) (d : Nat → List Nat) :
    Prop where
  fitted : Fitted (p.body 0) t
  code : ∀ f, t.layout f ≠ [] → ∃ k e, Compiled p k e f t d ∧ Confined p passed k e

/-- A function that ends goes on in itself only, and lies in the address space. -/
def Contained (p : Program) (c : Config) : Prop :=
  ∀ l, c.loop = some l → Cuts c.s l ∨ l.stop ≤ l.addr →
    Block.Inside (p.body 0) l.st l.addr ∧ l.addr ≤ 2 ^ 32

/-- What the steps of a run keep in which every function is contained. -/
structure Ranges (p : Program) (c : Config) : Prop where
  idle : c.loop = none → Populated p c.Translated c.s.blk c.s.dests
  run : ∀ l, c.loop = some l → ∃ s₀ f pr, Running p c.s l (p.body 0) s₀ f pr ∧ s₀.layout f = [] ∧
    Populated p c.Translated s₀ c.s.dests
  passed : ∀ l, c.loop = some l → ∀ a, Past l.st l.addr a → c.Translated a
  calls : c.s.calls.map Prod.fst = c.s.words.filterMap fun w => callee? (p.body 0 w.addr).act

/-- The function that the call at an address refers to. -/
def State.callee (inst : Nat → Inst) (s : State) (a : Nat) : Option FnId :=
  (((s.words.filter fun w => (callee? (inst w.addr).act).isSome).map Word.addr).zip
    (s.calls.map Prod.snd)).lookup a

variable {p : Program} {sec : Section} {s : State} {l : Loop} {c c' : Config} {s₀ t : Block.State}
  {f g : FnId} {pr k e a : Nat} {d d' : Nat → List Nat} {passed passed' : Nat → Prop}

theorem Confined.mono (h : Confined p passed k e) (hle : ∀ a, passed a → passed' a) :
    Confined p passed' k e :=
  ⟨h.inside, h.bound, fun a ha => hle a (h.passed a ha)⟩

theorem Populated.mono (h : Populated p passed t d) (hle : ∀ a, passed a → passed' a) :
    Populated p passed' t d :=
  ⟨h.fitted, fun f hf => let ⟨k, e, hc, hr⟩ := h.code f hf; ⟨k, e, hc, hr.mono hle⟩⟩

/-! ### The end of a function -/

theorem finish_unmarked (p : Program) (s : State) : Unmarked s.blk (s.finish p).blk := by
  have hret : Unmarked s.blk (s.returned p) := by
    unfold State.returned
    split
    · exact (Carries.refl (n := 0) s.blk).toUnmarked
    · split
      · exact (Carries.emit (n := 0) s.blk .unreachable).toUnmarked
      · exact ((Carries.ops (n := 0) s.blk p.epilogue).trans (.retVoid _)).toUnmarked
  rw [finish_blk]
  exact ⟨hret.nextInstr, hret.marks, hret.fresh⟩

/-- The code of a function fits as well. -/
theorem Running.finish_fitted (h : Running p s l (p.body 0) s₀ f pr) (hf : Fitted (p.body 0) s₀) :
    Fitted (p.body 0) (s.finish p).blk := by
  obtain ⟨-, first, hp⟩ := h.reach.placed h.aligned
  have hkept := h.kept (.refl s₀ s.dests)
  have hend := finish_unmarked p s
  intro i a hi ha
  by_cases hlt : i < s.blk.nextInstr
  · rw [hend.marks i hlt] at ha
    refine le_trans ?_ hend.nextInstr
    by_cases hold : i < s₀.nextInstr
    · rw [hkept.marks i hold] at ha
      exact le_trans (hf i a hold ha) hkept.nextInstr
    · obtain ⟨hpast, rfl⟩ := (hp.mark i a (Nat.not_lt.mp hold) hlt).mp ha
      exact (hp.start a hpast).2.2
  · rw [hend.fresh i (Nat.not_lt.mp hlt) hi] at ha
    cases ha

theorem compiled_keeps (p : Program) (k e : Nat) (f : FnId) : Keeps p (Compiled p k e f) := by
  refine ⟨fun t d bld h => ?_, fun t d _ _ h => ?_, fun s l body s₀ g pr hr h => ?_⟩
  · obtain ⟨s, l, s₀, pr, rest, hr, hk, he, hempty, hfit, hkept, hlay⟩ := h
    exact ⟨s, l, s₀, pr, rest, hr, hk, he, hempty, hfit, (kept_keeps p _ _).bld _ _ _ hkept, hlay⟩
  · obtain ⟨s, l, s₀, pr, rest, hr, hk, he, hempty, hfit, hkept, hlay⟩ := h
    exact ⟨s, l, s₀, pr, rest, hr, hk, he, hempty, hfit, (kept_keeps p _ _).image _ _ _ _ hkept,
      hlay⟩
  · obtain ⟨s', l', s₀', pr', rest, hr', hk, he, hempty, hfit, hkept, hlay, hne⟩ := h
    obtain ⟨rest', hrest⟩ := hr.finish_prefix f
    refine ⟨s', l', s₀', pr', rest ++ rest', hr', hk, he, hempty, hfit,
      (kept_keeps p _ _).finish s l body s₀ g pr hr hkept, ?_, hne⟩
    rw [hrest, hlay, List.append_assoc]

/-- **The end of a function** whose range is all right. -/
theorem Running.finish_populated (h : Running p s l (p.body 0) s₀ f pr) (hempty : s₀.layout f = [])
    (hf : Populated p passed s₀ s.dests) (hr : Confined p passed l.st l.addr) :
    Populated p passed (s.finish p).blk (s.finish p).dests := by
  refine ⟨h.finish_fitted hf.fitted, fun g hg => ?_⟩
  by_cases hgf : g = f
  · subst hgf
    exact ⟨l.st, l.addr, ⟨s, l, s₀, pr, [], h, rfl, rfl, hempty, hf.fitted, .refl _ _,
      (List.append_nil _).symm, hg⟩, hr⟩
  · have hold : s₀.layout g ≠ [] := fun hnil => hg (by rw [finish_layout, h.layout hgf, hnil]; rfl)
    obtain ⟨k, e, hc, hrange⟩ := hf.code g hold
    exact ⟨k, e, (compiled_keeps p k e g).finish s l _ s₀ f pr h hc, hrange⟩

/-! ### Steps -/

/-- The calls are those of the words. -/
theorem step_calls (hi : Inv c) (hs : c.step p = .ok c') :
    (c'.s.words = c.s.words ∧ c'.s.calls = c.s.calls) ∨
      ∃ w : Word, c'.s.words = c.s.words ++ [w] ∧ c'.s.calls.map Prod.fst =
        c.s.calls.map Prod.fst ++ (callee? (p.body 0 w.addr).act).toList := by
  cases hl : c.loop with
  | some l =>
    obtain ⟨-, t, l', ht, rfl⟩ | ⟨-, t, ht, rfl⟩ := step_loops hl hs
    · obtain ⟨obj, hobj, ⟨-, -, hsw⟩ | ⟨-, rfl, cur, hcur, ht⟩⟩ := turn_ok ht
      · obtain ⟨-, hwords, -⟩ := switch_loop hsw
        exact .inl ⟨hwords, (switch_steady (s := {c.s with addr := l.addr}) hobj hsw).1.calls⟩
      · have hsec : obj.sec = 0 := (hi.keyed.sec _ obj hobj).trans hi.sec
        have hbody : ∀ a, p.body 0 a = cur.inst a := fun a => by
          unfold Program.body
          rw [← hsec, hcur]
        obtain ⟨u, blk, rfl, -, ⟨hnone, rfl⟩ | ⟨target, cur', hsome, -, hc⟩⟩ := translateInstr_ok ht
        · refine .inr ⟨_, rfl, ?_⟩
          rw [hbody, hnone]
          exact (List.append_nil _).symm
        · obtain ⟨o, v, f, hv, -, rfl⟩ := handleCall_ok hc
          refine .inr ⟨_, congrArg (· ++ _) (getByAddr_aside hv).words, ?_⟩
          rw [hbody, hsome]
          show (v.calls ++ [(target, f)]).map Prod.fst = _
          rw [List.map_append, getByAddr_calls hv]
          rfl
    · refine .inl ⟨?_, (leave_steady ht).1.calls⟩
      obtain ⟨obj, -, ht⟩ := bind_ok ht
      obtain rfl := Except.ok.inj ht
      rfl
  | none =>
    cases htodo : c.todo with
    | cons F todo =>
      obtain ⟨t, l, ht, rfl⟩ := step_enters hl htodo hs
      let new : Obj := {name := F.name, sec := c.s.sec, addr := F.start, stop := some F.stop}
      have ht : ((c.s.newFunction new).addFunc c.s.nextObj new).translate p c.s.sec c.s.nextObj =
          .ok (t, l) := ht
      exact .inl ⟨(translate_loop ht).2.2.1, (translate_steady ht).1.calls⟩
    | nil =>
      obtain rfl | ⟨sec, -, rfl⟩ := step_idle hl htodo hs
      · exact .inl ⟨rfl, rfl⟩
      · exact .inl ⟨rfl, rfl⟩

/-- A function that is entered is one of the section. -/
theorem Entered.first {o : Nat} {obj : Obj} {t : State} (h : Entered p s o obj t l) (hk : Keyed t)
    (hsec : t.sec = 0) :
    Running p t l (p.body 0) s.blk (s.fnOf obj.name) (p.prologueOf obj.name) := by
  obtain ⟨obj', hobj', -⟩ := h.fn
  have hbody := (h.running.obj obj' (by rw [h.cur]; exact hobj')).1
  rw [hk.sec _ _ hobj', hsec] at hbody
  exact hbody ▸ h.running

theorem Ranges.step (h : Ranges p c) (hi : Inv c) (hi' : Inv c')
    (hu : Unfilled c) (hg : Contained p c) (hs : c.step p = .ok c') (hstep : Step p c c') :
    Ranges p c' := by
  have hcalls : c'.s.calls.map Prod.fst =
      c'.s.words.filterMap fun w => callee? (p.body 0 w.addr).act := by
    rcases step_calls hi hs with ⟨hw, hc⟩ | ⟨w, hw, hc⟩
    · rw [hw, hc]
      exact h.calls
    · rw [hw, hc, h.calls, List.filterMap_append]
      cases hw : callee? (p.body 0 w.addr).act <;> simp [hw]
  have hsame : c'.s.words = c.s.words → ∀ a, c.Translated a → c'.Translated a := fun hw a ha => by
    unfold Config.Translated
    rw [hw]
    exact ha
  have hended : ∀ l, c.loop = some l → (Cuts c.s l ∨ l.stop ≤ l.addr) →
      Populated p c.Translated (c.s.finish p).blk (c.s.finish p).dests := fun l hl hend => by
    obtain ⟨s₀, f, pr, hr, hempty, hf⟩ := h.run l hl
    obtain ⟨hin, hbound⟩ := hg l hl hend
    exact hr.finish_populated hempty hf ⟨hin, hbound, h.passed l hl⟩
  cases hstep with
  | @turn l loop lt stays next keeps dests words =>
    obtain ⟨s₀, f, pr, hr, hempty, hf⟩ := h.run l loop
    obtain ⟨w, hw, hwords⟩ := words
    have hmono : ∀ a, c.Translated a → c'.Translated a := fun a ⟨x, hx, ha⟩ =>
      ⟨x, hwords ▸ List.mem_append_left _ hx, ha⟩
    refine ⟨fun hn => (by rw [next] at hn; cases hn), fun l₂ hl₂ => ?_,
      fun l₂ hl₂ a ha => ?_, hcalls⟩
    · obtain rfl := Option.some.inj (next.symm.trans hl₂)
      exact ⟨s₀, f, pr, (keeps _ _ _ _ hr).2, hempty, dests ▸ hf.mono hmono⟩
    · obtain rfl := Option.some.inj (next.symm.trans hl₂)
      rcases (Past.next hr.le hr.reach.mod).mp ha with ha | rfl
      · exact hmono a (h.passed l loop a ha)
      · exact ⟨w, hwords ▸ List.mem_append_right _ (List.mem_singleton.mpr rfl), hw⟩
  | @leave l loop le next blk dests words =>
    refine ⟨fun _ => ?_, fun l₂ hl₂ => (by rw [next] at hl₂; cases hl₂),
      fun l₂ hl₂ => (by rw [next] at hl₂; cases hl₂), hcalls⟩
    rw [blk, dests]
    exact (hended l loop (.inr le)).mono (hsame words)
  | @cut l l' o obj s loop cuts registered known blk dests fnOf next st entered left words =>
    refine ⟨fun hn => (by rw [next] at hn; cases hn), fun l₂ hl₂ => ?_,
      fun l₂ hl₂ a ha => ?_, hcalls⟩
    · obtain rfl := Option.some.inj (next.symm.trans hl₂)
      refine ⟨s.blk, _, _, entered.first hi'.keyed hi'.sec, ?_, ?_⟩
      · obtain ⟨old, hold, hname⟩ := known
        rw [blk, finish_layout, fnOf, ← hname, hu.1 l o old loop cuts registered hold]
        rfl
      · rw [entered.dests, blk, dests]
        exact (hended l loop (.inl cuts)).mono (hsame words)
    · obtain rfl := Option.some.inj (next.symm.trans hl₂)
      have := ha.1
      have := ha.2.1
      have := entered.addr.trans entered.st.symm
      omega
  | @enter l' o obj s loop named fnOf blk dests next entered words =>
    refine ⟨fun hn => (by rw [next] at hn; cases hn), fun l₂ hl₂ => ?_,
      fun l₂ hl₂ a ha => ?_, hcalls⟩
    · obtain rfl := Option.some.inj (next.symm.trans hl₂)
      obtain ⟨F, todo, htodo, hname⟩ := named
      refine ⟨s.blk, _, _, entered.first hi'.keyed hi'.sec, ?_, ?_⟩
      · rw [blk, fnOf, hname]
        exact hu.2 F todo loop htodo
      · rw [entered.dests, blk, dests]
        exact (h.idle loop).mono (hsame words)
    · obtain rfl := Option.some.inj (next.symm.trans hl₂)
      have := ha.1
      have := ha.2.1
      have := entered.addr.trans entered.st.symm
      omega
  | idle loop next blk dests words =>
    refine ⟨fun _ => ?_, fun l₂ hl₂ => (by rw [next] at hl₂; cases hl₂),
      fun l₂ hl₂ => (by rw [next] at hl₂; cases hl₂), hcalls⟩
    have hf := (h.idle loop).mono (hsame words)
    rw [dests]
    rcases blk with hb | hb
    · rw [hb]
      exact hf
    · rw [hb]
      refine ⟨hf.fitted, fun f hlay => ?_⟩
      obtain ⟨k, e, hc, hr⟩ := hf.code f hlay
      exact ⟨k, e, (compiled_keeps p k e f).bld _ _ _ hc, hr⟩

/-- **The ranges of a run** whose steps answer their calls and end functions that are contained. -/
theorem Config.Reach.ranges {pending : Map Nat PendingReloc} {sections : String → List Constant}
    (hp : p.sections = [sec]) (haligned : p.Aligned)
    (hsorted : sec.symbols.Pairwise fun x y => x.addr ≤ y.addr)
    (h : Config.Reach p (fun c => Answers p sec c ∧ Contained p c) pending sections c) :
    Ranges p c := by
  refine (h.vacated (I := fun c => Inv c ∧ Ranges p c) haligned
    (fun _ hg => ⟨hg.1.apart, hg.1.unfilled⟩) ⟨.init pending sections, ?_⟩
    fun c c' hf hv hg hs hstep ⟨hi, hr⟩ => ?_).2.2
  · exact ⟨fun _ => ⟨fun _ _ hi => (nomatch hi), fun _ hlay => absurd rfl hlay⟩,
      fun _ hl => (nomatch hl), fun _ hl => (nomatch hl), rfl⟩
  · have hi' := hi.step hp hsorted hg.1.orderly hs
    exact ⟨hi', hr.step hi hi' hg.1.unfilled hg.2 hs hstep⟩

/-! ### Calls -/

/-- The list of calls, beside that of the words, has the function of each. -/
theorem callee_spec {inst : Nat → Inst} (hk : callee? (inst a).act = some k)
    (h : s.calls.map Prod.fst = s.words.filterMap fun w => callee? (inst w.addr).act) :
    (∀ f, s.callee inst a = some f → (k, f) ∈ s.calls) ∧
      ((∃ w ∈ s.words, w.addr = a) → ∃ f, s.callee inst a = some f) := by
  unfold State.callee
  generalize s.words = words at *
  generalize s.calls = calls at *
  induction words generalizing calls with
  | nil => exact ⟨fun f hf => (nomatch hf), fun ⟨w, hw, _⟩ => nomatch hw⟩
  | cons w words ih =>
    cases hw : callee? (inst w.addr).act with
    | none =>
      rw [List.filterMap_cons_none (f := fun w : Word => callee? (inst w.addr).act) hw] at h
      obtain ⟨h₁, h₂⟩ := ih calls h
      rw [List.filter_cons_of_neg (by rw [hw]; exact nofun)]
      refine ⟨h₁, fun ⟨x, hx, ha⟩ => ?_⟩
      rcases List.mem_cons.mp hx with rfl | hx
      · rw [ha, hk] at hw
        cases hw
      · exact h₂ ⟨x, hx, ha⟩
    | some k' =>
      rw [List.filterMap_cons_some (f := fun w : Word => callee? (inst w.addr).act) hw] at h
      obtain ⟨⟨target, f⟩, calls, rfl⟩ := List.exists_cons_of_ne_nil (l := calls)
        (by rintro rfl; cases h)
      obtain ⟨rfl, htail⟩ := List.cons.inj h
      obtain ⟨h₁, h₂⟩ := ih calls htail
      rw [List.filter_cons_of_pos (by rw [hw]; rfl), List.map_cons, List.map_cons,
        List.zip_cons_cons,
        List.lookup_cons]
      by_cases ha : w.addr = a
      · subst ha
        obtain rfl : target = k := Option.some.inj (hw.symm.trans hk)
        rw [beq_self_eq_true]
        refine ⟨fun f' hf' => ?_, fun _ => ⟨f, rfl⟩⟩
        obtain rfl : f = f' := Option.some.inj hf'
        exact List.mem_cons_self
      · rw [beq_false_of_ne (Ne.symm ha)]
        refine ⟨fun f' hf' => List.mem_cons_of_mem _ (h₁ f' hf'), fun ⟨x, hx, hxa⟩ => ?_⟩
        rcases List.mem_cons.mp hx with rfl | hx
        · exact absurd hxa ha
        · exact h₂ ⟨x, hx, hxa⟩

/-- When all is translated, the functions that are called have code. -/
theorem Answered.body (h : Answered p sec c) (hl : c.loop = none) (htodo : c.todo = [])
    (hc : (k, f) ∈ c.s.calls) : Body c.s.blk f k := by
  rcases h.calls k f hc with hb | ⟨l, hl', -⟩ | ⟨⟨F, hF, -⟩ | ⟨l, hl', -⟩, -⟩
  · exact hb.idle hl
  · exact nomatch hl.symm.trans hl'
  · rw [htodo] at hF
    cases hF
  · exact nomatch hl.symm.trans hl'

/-! ### What a function begins with -/

/-- A function that nothing was translated for begins with no instruction. -/
theorem Running.not_body (h : Running p s l (p.body 0) s₀ f pr) (heq : l.st = l.addr)
    (hempty : s₀.layout f = []) (hk : Kept (s.finish p).blk (s.finish p).dests t d)
    {rest : List Nat}
    (hlay : t.layout f = (s.finish p).blk.layout f ++ rest) (hne : (s.finish p).blk.layout f ≠ []) :
    ¬ Body t f a := by
  rintro ⟨b, rest', hb, -, q, i, r, hins, -, hi⟩
  obtain ⟨u, hu, -⟩ := returned_appends p s
  have hblk : s.blk = (s₀.newFunction f).start l.st pr := by
    have hreach := h.reach
    generalize hv : s.blk = v at hreach
    generalize hx : l.addr = x at hreach heq
    cases hreach with
    | start => rfl
    | turn before =>
      have := before.le
      omega
  have hbase := h.own.base
  have hlayout : s.blk.layout f = [s₀.nextBlock] := by
    have hl := hbase.layout
    rw [start_func, hempty] at hl
    rw [hblk]
    exact hl
  obtain ⟨x, rest'', hx⟩ := List.exists_cons_of_ne_nil hne
  obtain rfl : x = b := by
    rw [hlay, hx] at hb
    exact (List.cons.inj hb).1
  obtain rfl : x = s₀.nextBlock := by
    have hmem : x ∈ (s.finish p).blk.layout f := by rw [hx]; exact List.mem_cons_self
    rw [finish_layout, hlayout] at hmem
    exact List.mem_singleton.mp (List.mem_of_mem_filter hmem)
  have hlt : s₀.nextBlock < (s.finish p).blk.nextBlock := by
    rw [finish_nextBlock]
    exact h.own.lt_nextBlock
  have hmem : i ∈ (t.bbs s₀.nextBlock).insts := by rw [hins]; simp
  rw [hk.bbs _ hlt, finish_blk] at hmem
  -- What is in the entry block is the prologue and the end of the function.
  have hnone : i.id < (s.finish p).blk.nextInstr ∧ (s.finish p).blk.marks i.id = none := by
    rcases hu.insts hmem with hmem | hmem
    · rw [hblk] at hmem
      have hid := hbase.ids i hmem
      rw [← hblk] at hid
      refine ⟨lt_of_lt_of_le hid (finish_nextInstr p s), ?_⟩
      rw [finish_marks p s hid, hblk]
      exact (hbase.quiet i hmem).2
    · obtain ⟨-, hid, hmark⟩ := hu.fresh i hmem
      rw [finish_blk]
      exact ⟨hid, hmark⟩
  rw [hk.marks _ hnone.1, hnone.2] at hi
  cases hi

/-- A function begins with the first instruction of its range. -/
theorem Compiled.begins (h : Compiled p k e f t d) (hb : Body t f a) : a = k ∧ k < e := by
  obtain ⟨s, l, s₀, pr, rest, hr, rfl, rfl, hempty, -, hkept, hlay, hne⟩ := h
  rcases Nat.lt_or_eq_of_le hr.le with hlt | heq
  · obtain ⟨rest', hentry⟩ := hr.finish_entry hlt hempty
    obtain ⟨b, rest'', hb, hbegins⟩ := hb
    rw [hlay, hentry] at hb
    obtain ⟨rfl, -⟩ := List.cons.inj hb
    exact ⟨Option.some.inj (hbegins.addr.symm.trans (hr.begins hkept hr.find_entry hlt).addr), hlt⟩
  · exact absurd hb (hr.not_body heq hempty hkept hlay hne)

end RiscvSbt.Context
