import RiscvSbt.Context.Holds
import RiscvSbt.Context.Lookups

/-! How a translation goes through the ranges of functions.

Every step of the loop goes on by one instruction, or on in the function that starts there, so
that a section whose functions lie side by side is translated word by word. -/
namespace RiscvSbt.Context
open Library Block State

/-- The words of a section that have been translated. -/
def State.wordsOf (s : State) (x : Nat) : List Nat := (s.words.filter (·.sec = x)).map Word.addr

variable {p : Program} {s t : State} {obj : Obj} {o : Nat} {l l' : Loop} {sec : Section}
  {c c' : Config} {F : Func} {todo : List Func} {a x : Nat}

theorem wordsOf_append {w : Word} (h : t.words = s.words ++ [w]) :
    t.wordsOf x = s.wordsOf x ++ if w.sec = x then [w.addr] else [] := by
  unfold State.wordsOf
  rw [h, List.filter_append, List.map_append]
  by_cases hw : w.sec = x
  · simp [hw]
  · simp [hw]

theorem wordsOf_eq (h : t.words = s.words) : t.wordsOf x = s.wordsOf x := by
  unfold State.wordsOf
  rw [h]

/-- Starting a function puts it into the module under its name. -/
theorem start_module (hmain : obj.name = "main" → s.module.get? "main" = none) :
    (s.start p o obj).module.get? obj.name = some (s.fnOf obj.name) := by
  unfold State.start State.fnOf
  by_cases h : obj.name = "main"
  · rw [if_pos h, if_pos h]
    show (s.createNew obj.name).2.module.get? obj.name = some s.nextFn
    unfold State.createNew
    rw [if_pos (h ▸ hmain h)]
    exact Map.get?_upsert_self _ _ _
  · rw [if_neg h, if_neg h]
    exact create_get? s obj.name

/-! ### Operations -/

theorem getByAddr_sec (h : s.getByAddr sec a = .ok (o, t)) : t.sec = s.sec := by
  cases hget : s.funcByAddr.get? a with
  | some o' =>
    obtain ⟨-, rfl⟩ := getByAddr_known h hget
    rfl
  | none =>
    obtain ⟨-, N, rfl⟩ := getByAddr_add h hget
    obtain ⟨m, n, heq⟩ := added_eq s sec a
    rw [heq]
    rfl

theorem getByAddr_module {n : String} {f : FnId} (h : s.getByAddr sec a = .ok (o, t))
    (hn : s.module.get? n = some f) : t.module.get? n = some f := by
  cases hget : s.funcByAddr.get? a with
  | some o' =>
    obtain ⟨-, rfl⟩ := getByAddr_known h hget
    exact hn
  | none =>
    obtain ⟨-, -, -, -, hm, -⟩ := getByAddr_new h hget
    rw [hm]
    exact create_module hn

theorem translate_loop (h : s.translate p x o = .ok (t, l)) :
    t.sec = s.sec ∧ t.cur = o ∧ t.words = s.words ∧ ∃ obj, s.objs o = some obj ∧
      obj.stop = some l.stop ∧ l.st = obj.addr ∧ l.addr = obj.addr ∧
      ((obj.name = "main" → s.module.get? "main" = none) →
        t.module.get? obj.name = some (s.fnOf obj.name)) := by
  obtain ⟨obj, v, hobj, hv, hstop, hst, haddr, rfl⟩ := translate_cases h
  obtain ⟨N, rfl⟩ := updateNextFuncAddr_eq hv
  let v : State := {s with cur := o, nextFuncAddr := N}
  have hrest : (v.start p o obj).sec = s.sec ∧ (v.start p o obj).cur = o ∧
      (v.start p o obj).words = s.words := by
    obtain ⟨f, m, n, im, blk, heq⟩ := start_ok p v o obj
    rw [heq]
    exact ⟨rfl, rfl, rfl⟩
  refine ⟨hrest.1, hrest.2.1, hrest.2.2, obj, hobj, hstop, hst, haddr, fun hmain => ?_⟩
  rw [← show v.fnOf obj.name = s.fnOf obj.name from fnOf_congr rfl rfl]
  exact start_module hmain

theorem switch_loop (h : s.switch p obj l = .ok (t, l')) :
    t.sec = s.sec ∧ t.words = s.words ∧ l'.stop = l.stop ∧ s.funcByAddr.get? l.addr =
    some t.cur := by
  obtain ⟨nextf, next, blocks, moved, hget, -, -, h⟩ := switch_cases h
  obtain ⟨hsec, hcur, hwords, obj', hobj', hstop, -⟩ := translate_loop h
  obtain rfl := Option.some.inj (handOver_next.symm.trans hobj')
  exact ⟨hsec, hwords, (Option.some.inj hstop).symm, hget.trans (congrArg some hcur.symm)⟩

theorem translateInstr_walk (hm : Maps s) (hcur : s.objs s.cur = some obj)
    (h : s.translateInstr p obj sec a = .ok t) :
    t.sec = s.sec ∧ t.cur = s.cur ∧ t.words = s.words ++ [⟨obj.sec, a, t.blk.bld.first⟩] ∧
      (∀ n f, s.module.get? n = some f → t.module.get? n = some f) ∧
      ∀ obj', t.objs t.cur = some obj' → obj' = obj := by
  obtain ⟨u, blk, rfl, -, ⟨-, rfl⟩ | ⟨target, cur, -, -, hc⟩⟩ := translateInstr_ok h
  · exact ⟨rfl, rfl, rfl, fun _ _ hn => hn, fun obj' ho =>
      Option.some.inj (ho.symm.trans hcur)⟩
  · obtain ⟨o, v, f, hv, -, rfl⟩ := handleCall_ok hc
    have ha := getByAddr_aside hv
    have hmod : ∀ n f, s.module.get? n = some f → v.module.get? n = some f :=
      fun _ _ hn => getByAddr_module hv hn
    have hsec : v.sec = s.sec := getByAddr_sec hv
    refine ⟨hsec, ha.cur, congrArg (· ++ _) ha.words, hmod, fun obj' ho => ?_⟩
    have ho : v.objs v.cur = some obj' := ho
    rw [ha.cur] at ho
    rcases ha.objs _ _ ho with ho | ⟨heq, -⟩
    · exact Option.some.inj (ho.symm.trans hcur)
    · exact absurd heq (Nat.ne_of_lt (hm.ids _ _ (hm.name _ _ hcur)))

/-! ### Steps -/

/-- In the loop of a function. -/
theorem step_loop (hm : Maps c.s) (hl : c.loop = some l) (hs : c.step p = .ok c') :
    c'.todo = c.todo ∧ c'.next = c.next ∧ c'.s.sec = c.s.sec ∧
      (∀ n f, c.s.module.get? n = some f → c'.s.module.get? n = some f) ∧
      ∀ l', c'.loop = some l' → l'.stop = l.stop := by
  obtain ⟨-, t, l', ht, rfl⟩ | ⟨-, t, ht, rfl⟩ := step_loops hl hs
  · obtain ⟨obj, hobj, ⟨-, -, hsw⟩ | ⟨-, rfl, sec, -, hi⟩⟩ := turn_ok ht
    · obtain ⟨hsec, -, hstop, -⟩ := switch_loop hsw
      refine ⟨rfl, rfl, hsec, (switch_steady (s := {c.s with addr := l.addr}) hobj hsw).1.module,
        fun l₂ hl₂ => ?_⟩
      obtain rfl := Option.some.inj hl₂
      exact hstop
    · have hm : Maps {c.s with addr := l.addr} :=
        ⟨hm.fresh, hm.ids, hm.addr, hm.name, hm.fn, hm.inj⟩
      obtain ⟨hsec, -, -, hmod, -⟩ := translateInstr_walk hm hobj hi
      refine ⟨rfl, rfl, hsec, hmod, fun l₂ hl₂ => ?_⟩
      obtain rfl := Option.some.inj hl₂
      rfl
  · refine ⟨rfl, rfl, ?_, (leave_steady ht).1.module, fun l₂ hl₂ => (nomatch hl₂)⟩
    obtain ⟨obj, -, ht⟩ := bind_ok ht
    obtain rfl := Except.ok.inj ht
    rfl

/-- The function in progress is alive. -/
theorem step_live (hl : c.loop = some l) (hs : c.step p = .ok c') :
    ∃ obj, c.s.objs c.s.cur = some obj := by
  obtain ⟨-, t, l', ht, -⟩ | ⟨-, t, ht, -⟩ := step_loops hl hs
  · obtain ⟨obj, hobj, -⟩ := turn_ok ht
    exact ⟨obj, hobj⟩
  · obtain ⟨obj, hobj, -⟩ := bind_ok ht
    exact ⟨obj, live_ok hobj⟩

/-- Where the loop does not switch. -/
theorem step_turn (hm : Maps c.s) (hl : c.loop = some l) (hlt : l.addr < l.stop)
    (hstay : ¬ Cuts c.s l) (hs : c.step p = .ok c') :
    ∃ obj, c.s.objs c.s.cur = some obj ∧
      c'.s.words = c.s.words ++ [⟨obj.sec, l.addr, c'.s.blk.bld.first⟩] ∧
      ∀ obj', c'.s.objs c'.s.cur = some obj' → obj' = obj := by
  obtain ⟨t, l', ht, rfl⟩ := step_turns hl hlt hs
  obtain ⟨obj, hobj, ⟨hne, hat, -⟩ | ⟨-, rfl, sec, -, hi⟩⟩ := turn_ok ht
  · exact absurd ⟨hlt, hne, obj, hobj, hat⟩ hstay
  · have hm : Maps {c.s with addr := l.addr} := ⟨hm.fresh, hm.ids, hm.addr, hm.name, hm.fn, hm.inj⟩
    obtain ⟨-, -, hwords, -, hcur⟩ := translateInstr_walk hm hobj hi
    exact ⟨obj, hobj, hwords, hcur⟩

/-- The function at a switch is in the section that it was in before. -/
theorem step_cut (hl : c.loop = some l) (hcuts : Cuts c.s l) (hs : c.step p = .ok c') :
    c.s.funcByAddr.get? l.addr = some c'.s.cur ∧ ∀ obj', c'.s.objs c'.s.cur = some obj' →
      ∃ obj, c.s.objs c'.s.cur = some obj ∧ obj'.sec = obj.sec := by
  obtain ⟨hlt, hne, obj', hobj', hat'⟩ := hcuts
  obtain ⟨t, l', ht, rfl⟩ := step_turns hl hlt hs
  obtain ⟨obj, hobj, ⟨-, hat, hsw⟩ | ⟨hno, -⟩⟩ := turn_ok ht
  · obtain ⟨-, -, -, hget⟩ := switch_loop hsw
    obtain ⟨-, nextf, old, -, -, hgiven⟩ := switch_steady (s := {c.s with addr := l.addr}) hobj hsw
    refine ⟨hget, fun obj' ho => ?_⟩
    obtain ⟨obj, hobj, -, -, hsec, -⟩ := hgiven.objs _ _ ho
    exact ⟨obj, hobj, hsec⟩
  · obtain rfl := Option.some.inj (hobj.symm.trans hobj')
    exact absurd hat' (hno hne)

/-- The end of a function emits no call. -/
theorem ended_calls (hl : c.loop = some l) (hend : Cuts c.s l ∨ l.stop ≤ l.addr)
    (hs : c.step p = .ok c') : c'.s.calls = c.s.calls := by
  obtain ⟨hlt, u, l', hu, rfl⟩ | ⟨-, u, hu, rfl⟩ := step_loops hl hs
  · obtain ⟨obj, hobj, ⟨-, -, hsw⟩ | ⟨hno, -⟩⟩ := turn_ok hu
    · exact (switch_steady (s := {c.s with addr := l.addr}) hobj hsw).1.calls
    · obtain ⟨-, hne, cur, hcur, haddr⟩ := hend.resolve_right (Nat.not_le.mpr hlt)
      obtain rfl := Option.some.inj (hobj.symm.trans hcur)
      exact absurd haddr (hno hne)
  · exact (leave_steady hu).1.calls

/-- A function that a symbol delimits is entered. -/
theorem step_enter (hm : Maps c.s) (hl : c.loop = none) (htodo : c.todo = F :: todo)
    (hs : c.step p = .ok c') :
    c'.todo = todo ∧ c'.next = c.next ∧ c'.s.sec = c.s.sec ∧
      c'.loop = some ⟨F.start, F.stop, F.start⟩ ∧ c'.s.words = c.s.words ∧
      (∀ n f, c.s.module.get? n = some f → c'.s.module.get? n = some f) ∧
      ((F.name = "main" → c.s.module.get? "main" = none) →
        c'.s.module.get? F.name = some (c.s.fnOf F.name)) ∧
      ∃ obj, c'.s.objs c'.s.cur = some obj ∧ obj.sec = c.s.sec := by
  obtain ⟨t, l, ht, rfl⟩ := step_enters hl htodo hs
  let new : Obj := {name := F.name, sec := c.s.sec, addr := F.start, stop := some F.stop}
  let s₁ := (c.s.newFunction new).addFunc c.s.nextObj new
  have ht : s₁.translate p c.s.sec c.s.nextObj = .ok (t, l) := ht
  have hnew : s₁.objs c.s.nextObj = some new := addFunc_self hm.ids new
  obtain ⟨hsteady, hgiven, old, hold, hobj⟩ := translate_steady ht
  obtain ⟨hsec, hcur, hwords, obj, hobj', hstop, hst, haddr, hmod⟩ := translate_loop ht
  obtain rfl := Option.some.inj (hnew.symm.trans hobj')
  obtain rfl := Option.some.inj (hnew.symm.trans hold)
  obtain ⟨st, stop, addr⟩ := l
  obtain rfl : F.start = st := hst.symm
  obtain rfl : F.start = addr := haddr.symm
  obtain rfl : F.stop = stop := Option.some.inj hstop
  refine ⟨rfl, rfl, hsec, rfl, hwords, hsteady.module, fun hmain => ?_, _, hcur ▸ hobj, rfl⟩
  rw [← show s₁.fnOf F.name = c.s.fnOf F.name from fnOf_congr rfl rfl]
  exact hmod hmain

/-- What the module has stays there. -/
theorem step_module (hm : Maps c.s) (hs : c.step p = .ok c') {n : String} {f : FnId}
    (hn : c.s.module.get? n = some f) : c'.s.module.get? n = some f := by
  cases hl : c.loop with
  | some l =>
    obtain ⟨-, -, -, hmod, -⟩ := step_loop hm hl hs
    exact hmod n f hn
  | none =>
    cases htodo : c.todo with
    | cons F todo =>
      obtain ⟨-, -, -, -, -, hmod, -⟩ := step_enter hm hl htodo hs
      exact hmod n f hn
    | nil =>
      rcases step_idle hl htodo hs with rfl | ⟨sec, -, rfl⟩
      · exact hn
      · exact hn

end RiscvSbt.Context
