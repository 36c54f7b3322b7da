import RiscvSbt.Block.Placed
import RiscvSbt.Context.Moves

/-! The words that are translated, and the data that waits for them.

Each word starts at an LLVM instruction of its own (`Told`). The data that waits for an address is
served when a word with that address is translated, whatever its section is: it gets the block that
opens with the first one since the image was built (`Supplied`). -/
namespace RiscvSbt.Context
open Library Block State

/-- The words start at LLVM instructions that are marked, each at another one. -/
structure Told (t : Block.State) (ws : List Word) : Prop where
  marked : ∀ w ∈ ws, ∃ i, w.first = some i ∧ i < t.nextInstr ∧ t.marks i = some w.addr
  apart : (ws.map Word.first).Nodup

/-- The first code in a block is that of a word. -/
def Opens (t : Block.State) (b : Nat) (w : Word) : Prop :=
  ∃ q i r, (t.bbs b).insts = q ++ i :: r ∧ Quiet t q ∧ t.marks i.id = some w.addr ∧
    w.first = some i.id

/-- The words since there were `n` of them. -/
def State.since (s : State) (n : Nat) : List Word := s.words.drop n

/-- A word with an address has been translated. -/
def Reached (ws : List Word) (k : Nat) : Prop := ∃ w ∈ ws, w.addr = k

/-- A block opens with the first word with an address. -/
structure Opening (t : Block.State) (ws : List Word) (k b : Nat) : Prop where
  lt : b < t.nextBlock
  ids : ∀ i ∈ (t.bbs b).insts, i.id < t.nextInstr
  opens : ∃ w, ws.find? (·.addr = k) = some w ∧ Opens t b w

/-- The states reached by steps from good states and by lookups that are allowed, with one image. -/
inductive Within (p : Program) (good : Config → Prop) (looks : Config → Nat → Nat → Prop)
    (c₀ : Config) : Config → Prop where
  | start : Within p good looks c₀ c₀
  | step {c c' : Config} (before : Within p good looks c₀ c) (hgood : good c)
      (step : c.step p = .ok c') : Within p good looks c₀ c'
  | look {c : Config} {k a : Nat} {t : State} (before : Within p good looks c₀ c)
      (hlooks : looks c k a) (look : Looks p c k a t) : Within p good looks c₀ {c with s := t}

/-- A function in progress, with the words that were there before it and its own. -/
structure Going (p : Program) (n : Nat) (pending : Map Nat PendingReloc)
    (sections : String → List Constant) (s : State) (l : Loop) (body : Nat → Inst)
    (s₀ : Block.State) (f : FnId) (pr : Nat) (before : List Word) : Prop where
  running : Running p s l body s₀ f pr
  /-- What was the case when it was entered. -/
  patched : Patched pending sections (Reached before) (Opening s₀ before) s₀
  own : ∃ new, s.since n = before ++ new ∧ (∀ k, Reached new k ↔ Past l.st l.addr k) ∧
    ∀ w ∈ new, (∃ i, w.first = some i ∧ s₀.nextInstr ≤ i) ∧
      ∀ obj, s.objs s.cur = some obj → w.sec = obj.sec

/-- What has become, since there were `n` words, of the data that waits and of the sections. -/
structure Supplied (p : Program) (n : Nat) (pending : Map Nat PendingReloc)
    (sections : String → List Constant) (c : Config) : Prop where
  le : n ≤ c.s.words.length
  idle : c.loop = none → Patched pending sections (Reached (c.s.since n))
    (Opening c.s.blk (c.s.since n)) c.s.blk
  run : ∀ l, c.loop = some l → ∃ body s₀ f pr before,
    Going p n pending sections c.s l body s₀ f pr before

variable {p : Program} {s t : State} {l : Loop} {c c' c₀ : Config} {body : Nat → Inst}
  {s₀ u v : Block.State} {f : FnId} {pr n k b : Nat} {pending : Map Nat PendingReloc}
  {sections : String → List Constant} {good : Config → Prop} {looks : Config → Nat → Nat → Prop}
  {d e : Nat → List Nat} {ws before new : List Word} {w w' : Word}

/-! ### Words -/

theorem reached_append : Reached (ws ++ new) k ↔ Reached ws k ∨ Reached new k := by
  simp [Reached, or_and_right, exists_or]

theorem find_of_reached (h : Reached ws k) :
    ∃ w, ws.find? (·.addr = k) = some w ∧ w ∈ ws ∧ w.addr = k := by
  obtain ⟨w, hw, hk⟩ := h
  have hsome : (ws.find? (·.addr = k)).isSome = true :=
    List.find?_isSome.mpr ⟨w, hw, decide_eq_true hk⟩
  obtain ⟨x, hx⟩ := Option.isSome_iff_exists.mp hsome
  exact ⟨x, hx, List.mem_of_find?_eq_some hx, by simpa using List.find?_some hx⟩

theorem find_of_not_reached (h : ¬ Reached ws k) : ws.find? (·.addr = k) = none :=
  List.find?_eq_none.mpr fun w hw hk => h ⟨w, hw, of_decide_eq_true hk⟩

theorem since_append {x : Word} (hn : n ≤ s.words.length) (h : t.words = s.words ++ [x]) :
    t.since n = s.since n ++ [x] := by
  unfold State.since
  rw [h, List.drop_append_of_le_length hn]

theorem since_length (s : State) : s.since s.words.length = [] := List.drop_length

/-- Nothing is served before the first word. -/
theorem patched_nil {b : Nat → Nat → Prop} (t : Block.State) :
    Patched t.pending t.sections (Reached []) b t := by
  have hno : ∀ {k}, ¬ Reached [] k := fun ⟨w, hw, _⟩ => by cases hw
  exact ⟨fun _ => ⟨fun hk => absurd hk hno, fun _ => rfl⟩, fun _ => rfl, fun _ _ _ => rfl,
    fun _ _ hk => absurd hk hno⟩

/-- A block opens with one word at most. -/
theorem Opens.inj (h : Opens u b w) (h' : Opens u b w') (ht : Told u ws) (hw : w ∈ ws)
    (hw' : w' ∈ ws) : w = w' := by
  obtain ⟨q, i, r, hins, hq, hi, hfirst⟩ := h
  obtain ⟨q', i', r', hins', hq', hi', hfirst'⟩ := h'
  have hsame : i = i' := by
    rcases List.append_eq_append_iff.mp (hins.symm.trans hins') with ⟨m, hm, hr⟩ | ⟨m, hm, hr⟩
    · cases m with
      | nil => exact (List.cons.inj hr).1
      | cons j m =>
        obtain ⟨rfl, -⟩ := List.cons.inj hr
        have hnone := (hq' i (by rw [hm]; simp)).2
        rw [hi] at hnone
        cases hnone
    · cases m with
      | nil => exact (List.cons.inj hr).1.symm
      | cons j m =>
        obtain ⟨rfl, -⟩ := List.cons.inj hr
        have hnone := (hq i' (by rw [hm]; simp)).2
        rw [hi'] at hnone
        cases hnone
  exact List.inj_on_of_nodup_map ht.apart hw hw' (by rw [hfirst, hfirst', hsame])

namespace Opening

theorem kept (h : Opening u ws k b) (hk : Kept u d v e) : Opening v ws k b := by
  obtain ⟨w, hw, q, i, r, hins, hq, hi, hfirst⟩ := h.opens
  have hbbs := hk.bbs b h.lt
  have hids := h.ids
  rw [hins] at hids
  refine ⟨lt_of_lt_of_le h.lt hk.nextBlock, fun j hj => ?_, w, hw, q, i, r, ?_,
    hq.grow fun j hj => ?_,
    ?_, hfirst⟩
  · rw [hbbs] at hj
    exact lt_of_lt_of_le (h.ids j hj) hk.nextInstr
  · rw [hbbs, hins]
  · exact hk.marks _ (hids j (List.mem_append_left _ hj))
  · rw [hk.marks _ (hids i (List.mem_append_right _ List.mem_cons_self))]
    exact hi

/-- Something may be put behind what is in the block. -/
theorem finish (h : Opening s.blk ws k b) (p : Program) : Opening (s.finish p).blk ws k b := by
  obtain ⟨w, hw, q, i, r, hins, hq, hi, hfirst⟩ := h.opens
  obtain ⟨m, hm, -⟩ := returned_appends p s
  obtain ⟨x, hx, -⟩ := finish_insts p s b
  have hids := h.ids
  rw [hins] at hids
  refine ⟨by rw [finish_nextBlock]; exact h.lt, fun j hj => ?_, w, hw, q, i, r ++ x, ?_,
    hq.grow fun j hj => finish_marks p s (hids j (List.mem_append_left _ hj)), ?_, hfirst⟩
  · rw [finish_blk] at hj ⊢
    rcases hm.insts hj with hj | hj
    · exact lt_of_lt_of_le (h.ids j hj) hm.nextInstr
    · exact (hm.fresh j hj).2.1
  · rw [hx, hins, List.append_assoc]
    rfl
  · rw [finish_marks p s (hids i (List.mem_append_right _ List.mem_cons_self))]
    exact hi

/-- Later words are not the first one. -/
theorem append (h : Opening u ws k b) : Opening u (ws ++ new) k b := by
  obtain ⟨w, hw, hopens⟩ := h.opens
  exact ⟨h.lt, h.ids, w, by rw [List.find?_append, hw, Option.some_or], hopens⟩

end Opening

/-! ### Steps -/

theorem Running.adds (h : Running p s l body s₀ f pr)
    (ht : s.blk.translateInstr p.opts l.addr (body l.addr) = .ok u) :
    ∃ i, Adds s₀.nextBlock l.addr (body l.addr).ops s.blk u i := by
  obtain ⟨main, key, hinv, -⟩ := h.inv
  exact hinv.adds ht

/-- What has been marked stays marked. -/
theorem Step.marks (hf : Fresh p c) (hs : Step p c c') :
    c.s.blk.nextInstr ≤ c'.s.blk.nextInstr ∧
      ∀ i, i < c.s.blk.nextInstr → c'.s.blk.marks i = c.s.blk.marks i := by
  cases hs with
  | @turn l loop lt stays next keeps =>
    obtain ⟨body, s₀, f, pr, hr⟩ := hf.run l loop
    obtain ⟨i, hi⟩ := hr.adds (keeps _ _ _ _ hr).1
    exact ⟨le_trans hi.le (le_of_lt hi.lt), hi.marks⟩
  | leave loop le next blk =>
    rw [blk]
    exact ⟨finish_nextInstr p c.s, fun i hi => finish_marks p c.s hi⟩
  | @cut l l' o obj s loop cuts registered known blk dests fnOf next st entered =>
    obtain ⟨-, hnext, hmarks, -⟩ :=
      start_kept s.blk (s.fnOf obj.name) l'.st (p.prologueOf obj.name)
    rw [← entered.blk, blk] at hnext hmarks
    have hle := finish_nextInstr p c.s
    exact ⟨le_trans hle hnext, fun i hi =>
      (hmarks i (lt_of_lt_of_le hi hle)).trans (finish_marks p c.s hi)⟩
  | @enter l' o obj s loop named fnOf blk dests next entered =>
    obtain ⟨-, hnext, hmarks, -⟩ :=
      start_kept s.blk (s.fnOf obj.name) l'.st (p.prologueOf obj.name)
    rw [← entered.blk, blk] at hnext hmarks
    exact ⟨hnext, hmarks⟩
  | idle loop next blk =>
    rcases blk with hb | hb
    · rw [hb]
      exact ⟨le_refl _, fun _ _ => rfl⟩
    · rw [hb]
      exact ⟨le_refl _, fun _ _ => rfl⟩

/-- The word of a turn. -/
theorem Fresh.turn_word (hf : Fresh p c) (hl : c.loop = some l) (hlt : l.addr < l.stop)
    (hstay : ¬ Cuts c.s l) (hs : c.step p = .ok c')
    (keeps : ∀ body s₀ f pr, Running p c.s l body s₀ f pr →
      c.s.blk.translateInstr p.opts l.addr (body l.addr) = .ok c'.s.blk ∧
        Running p c'.s {l with addr := l.addr + 4} body s₀ f pr) :
    ∃ obj i, c.s.objs c.s.cur = some obj ∧ c'.s.words = c.s.words ++ [⟨obj.sec, l.addr, some i⟩] ∧
      (c.s.blk.nextInstr ≤ i ∧ i < c'.s.blk.nextInstr ∧ c'.s.blk.marks i = some l.addr) ∧
      ∀ obj', c'.s.objs c'.s.cur = some obj' → obj' = obj := by
  obtain ⟨body, s₀, f, pr, hr⟩ := hf.run l hl
  obtain ⟨i, hi⟩ := hr.adds (keeps _ _ _ _ hr).1
  obtain ⟨obj, hobj, hwords, hsame⟩ := step_turn hf.maps hl hlt hstay hs
  rw [hi.first] at hwords
  refine ⟨obj, i, hobj, hwords, ⟨hi.le, hi.lt, ?_⟩, hsame⟩
  rw [hi.fresh i hi.le hi.lt, if_pos rfl]

theorem Told.step (h : Told c.s.blk c.s.words) (hf : Fresh p c) (hs : c.step p = .ok c')
    (hstep : Step p c c') : Told c'.s.blk c'.s.words := by
  obtain ⟨hnext, hmarks⟩ := hstep.marks hf
  have hkept : ∀ w ∈ c.s.words, ∃ i, w.first = some i ∧ i < c'.s.blk.nextInstr ∧
      c'.s.blk.marks i = some w.addr := fun w hw => by
    obtain ⟨i, hi, hlt, hm⟩ := h.marked w hw
    exact ⟨i, hi, lt_of_lt_of_le hlt hnext, (hmarks i hlt).trans hm⟩
  have hsame : c'.s.words = c.s.words → Told c'.s.blk c'.s.words := fun heq => by
    rw [heq]
    exact ⟨hkept, h.apart⟩
  cases hstep with
  | turn loop lt stays next keeps =>
    obtain ⟨obj, i, -, hwords, ⟨hle, hlt, hm⟩, -⟩ := hf.turn_word loop lt stays hs keeps
    rw [hwords]
    refine ⟨fun w hw => ?_, ?_⟩
    · rcases List.mem_append.mp hw with hw | hw
      · exact hkept w hw
      · obtain rfl := List.mem_singleton.mp hw
        exact ⟨i, rfl, hlt, hm⟩
    · rw [List.map_append, List.nodup_append]
      refine ⟨h.apart, List.nodup_singleton _, fun x hx y hy heq => ?_⟩
      obtain ⟨w, hw, rfl⟩ := List.mem_map.mp hx
      obtain ⟨j, hj, hjlt, -⟩ := h.marked w hw
      rw [List.mem_singleton.mp hy, hj] at heq
      obtain rfl := Option.some.inj heq
      omega
  | leave _ _ _ _ _ words => exact hsame words
  | cut _ _ _ _ _ _ _ _ _ _ _ words => exact hsame words
  | enter _ _ _ _ _ _ _ words => exact hsame words
  | idle _ _ _ _ words => exact hsame words

/-! ### The function in progress -/

namespace Going
variable (h : Going p n pending sections s l body s₀ f pr before)
include h

/-- **The block of a label** of the function in progress, that was not reached before. -/
theorem opening (htold : Told s.blk s.words) (hb : b ∈ s.blk.func.indBBs)
    (ha : (s.blk.bbs b).addr = some k) (hno : ¬ Reached before k) :
    Opening s.blk (s.since n) k b := by
  have hr := h.running
  obtain ⟨new, hsince, hnew, hown⟩ := h.own
  obtain ⟨main, key, hinv, -⟩ := hr.inv
  obtain ⟨hn, hlt, k', hpast, -, ha'⟩ := hr.labelled.blocks b hb
  obtain rfl := Option.some.inj (ha.symm.trans ha')
  have hblock := hinv.heap.ids b hn hlt
  obtain ⟨q, i, r, hins, hq, hi⟩ := hr.first_code (hr.served_find hb ha) hpast.2.1
  obtain ⟨w, hfind, hw, hk⟩ := find_of_reached ((hnew k).mpr hpast)
  have hmem : w ∈ s.words := List.mem_of_mem_drop (show w ∈ s.since n from
    hsince ▸ List.mem_append_right before hw)
  obtain ⟨j, hj, hjlt, hm⟩ := htold.marked w hmem
  obtain ⟨⟨j', hj', hle⟩, -⟩ := hown w hw
  obtain rfl := Option.some.inj (hj.symm.trans hj')
  -- Both are where the code of the word starts.
  obtain ⟨-, first, hplaced⟩ := hr.reach.placed hr.aligned
  have hib : i ∈ (s.blk.bbs b).insts := by
    rw [hins]
    exact List.mem_append_right _ List.mem_cons_self
  have hi' := (hplaced.mark i.id k (hplaced.ids i ⟨b, hn, hlt, hib⟩) (hblock i hib)).mp hi
  have hj' := (hplaced.mark j k hle hjlt).mp (hm.trans (congrArg some hk))
  refine ⟨hlt, hblock, w, ?_, q, i, r, hins, hq, by rw [hi, hk], ?_⟩
  · rw [hsince, List.find?_append, find_of_not_reached hno, Option.none_or, hfind]
  · rw [hj, hj'.2, hi'.2]

/-- What waits for a label that was not reached before gets a block of the function. -/
theorem label (hno : ¬ Reached before k) (hpast : Past l.st l.addr k) {prel : PendingReloc}
    (hprel : pending.get? k = some prel) {x : String × Nat} (hx : x ∈ prel.secs)
    (hone : ∀ k' prel', pending.get? k' = some prel' → x ∈ prel'.secs → k' = k) :
    ∃ b ∈ s.blk.func.indBBs, (s.blk.bbs b).addr = some k ∧
      (s.blk.sections x.1)[x.2 / 4]? = some (.blockAddress b) := by
  obtain ⟨-, -, -, hpend, -⟩ := start_kept s₀ f l.st pr
  have hwaits : s₀.pending.get? k = some prel := ((h.patched.waits k).2 hno).trans hprel
  rw [← hpend] at hwaits
  obtain ⟨-, k', prel', b, -, hprel', hx', hb, haddr, hword⟩ :=
    h.running.labelled.held k prel hpast hwaits x hx
  rw [hpend] at hprel'
  obtain rfl := hone k' prel' (h.patched.waiting hprel').2 hx'
  exact ⟨b, hb, haddr, hword⟩

/-- What was reached before has a block of an earlier function. -/
theorem earlier (hk : Reached before k) {prel : PendingReloc}
    (hprel : pending.get? k = some prel) {x : String × Nat} (hx : x ∈ prel.secs)
    (hone : ∀ k' prel', pending.get? k' = some prel' → x ∈ prel'.secs → k' = k) :
    ∃ b, b ∉ s.blk.func.indBBs ∧ (s.blk.sections x.1)[x.2 / 4]? = some (.blockAddress b) := by
  obtain ⟨-, -, -, hpend, hsec, -⟩ := start_kept s₀ f l.st pr
  obtain ⟨hmod, k', prel', b, -, hprel', hx', hb, hword⟩ := h.patched.held k prel hk hprel x hx
  refine ⟨b, fun hmem => ?_, ?_⟩
  · have hge := (h.running.labelled.blocks b hmem).1
    exact absurd hb.lt (Nat.not_lt.mpr hge)
  · rw [h.running.labelled.kept x.1 (x.2 / 4) ?_, ← hword]
    · exact congrArg (fun m : String → List Constant => (m x.1)[x.2 / 4]?) hsec
    · rintro y prel'' hpast hy w hw ⟨hname, hoff⟩
      have hwmod := (h.running.labelled.held y prel'' hpast hy w hw).1
      obtain rfl : w = x := Prod.ext hname (by omega)
      rw [hpend] at hy
      obtain ⟨hno, hy⟩ := h.patched.waiting hy
      obtain rfl := hone y prel'' hy hw
      exact hno hk

/-- When it is entered. -/
theorem entered (haddr : l.addr = l.st) : before = s.since n := by
  obtain ⟨new, hsince, hnew, -⟩ := h.own
  cases new with
  | nil => rw [hsince, List.append_nil]
  | cons w new =>
    obtain ⟨hle, hlt, -⟩ := (hnew w.addr).mp ⟨w, List.mem_cons_self, rfl⟩
    omega

theorem aside (ha : Aside s t) : Going p n pending sections t l body s₀ f pr before := by
  obtain ⟨new, hsince, hnew, hown⟩ := h.own
  refine ⟨h.running.aside ha, h.patched, new, ?_, hnew,
    fun w hw => ⟨(hown w hw).1, fun obj ho => ?_⟩⟩
  · rw [← hsince]
    unfold State.since
    rw [ha.words]
  · rw [ha.cur] at ho
    rcases ha.objs _ obj ho with hold | ⟨heq, -⟩
    · exact (hown w hw).2 obj hold
    · exact absurd heq (Nat.ne_of_lt h.running.cur)

end Going

/-- A function that is entered. -/
theorem Running.going (h : Running p s l body s₀ f pr) (haddr : l.addr = l.st)
    (hp : Patched pending sections (Reached (s.since n)) (Opening s₀ (s.since n)) s₀) :
    Going p n pending sections s l body s₀ f pr (s.since n) := by
  refine ⟨h, hp, [], (List.append_nil _).symm, fun k => iff_of_false ?_ ?_,
    fun w hw => (by cases hw)⟩
  · rintro ⟨w, hw, -⟩
    cases hw
  · rintro ⟨hle, hlt, -⟩
    omega

/-- A turn of the loop. -/
theorem Going.turn (h : Going p n pending sections c.s l body s₀ f pr before)
    (hn : n ≤ c.s.words.length) (hf : Fresh p c) (hl : c.loop = some l) (hlt : l.addr < l.stop)
    (hstay : ¬ Cuts c.s l) (hs : c.step p = .ok c')
    (keeps : ∀ body s₀ f pr, Running p c.s l body s₀ f pr →
      c.s.blk.translateInstr p.opts l.addr (body l.addr) = .ok c'.s.blk ∧
        Running p c'.s {l with addr := l.addr + 4} body s₀ f pr) :
    Going p n pending sections c'.s {l with addr := l.addr + 4} body s₀ f pr before := by
  obtain ⟨obj, i, hobj, hwords, ⟨hle, -, -⟩, hsame⟩ := hf.turn_word hl hlt hstay hs keeps
  obtain ⟨new, hsince, hnew, hown⟩ := h.own
  have hr := h.running
  refine ⟨(keeps _ _ _ _ hr).2, h.patched, new ++ [⟨obj.sec, l.addr, some i⟩], ?_, fun k => ?_,
    fun w hw => ?_⟩
  · rw [since_append hn hwords, hsince, List.append_assoc]
  · rw [reached_append, hnew, Past.next hr.le hr.reach.mod]
    simp [Reached, eq_comm]
  · rcases List.mem_append.mp hw with hw | hw
    · refine ⟨(hown w hw).1, fun obj' ho => ?_⟩
      rw [hsame obj' ho]
      exact (hown w hw).2 obj hobj
    · obtain rfl := List.mem_singleton.mp hw
      exact ⟨⟨i, rfl, le_trans hr.nextInstr hle⟩, fun obj' ho => by rw [hsame obj' ho]⟩

namespace Supplied

/-- **The data in every state.** -/
theorem patched (h : Supplied p n pending sections c) (htold : Told c.s.blk c.s.words) :
    Patched pending sections (Reached (c.s.since n)) (Opening c.s.blk (c.s.since n)) c.s.blk := by
  cases hl : c.loop with
  | none => exact h.idle hl
  | some l =>
    obtain ⟨body, s₀, f, pr, before, hgoing⟩ := h.run l hl
    have hr := hgoing.running
    obtain ⟨new, hsince, hnew, -⟩ := hgoing.own
    obtain ⟨-, -, -, hpend, hsec, -⟩ := start_kept s₀ f l.st pr
    have hkept : Kept s₀ c.s.dests c.s.blk c.s.dests := hr.kept (.refl _ _)
    have hstart : Patched pending sections (Reached before) (Opening s₀ before)
        ((s₀.newFunction f).start l.st pr) :=
      hgoing.patched.congr (fun _ => .rfl) hpend hsec fun _ _ h => h
    refine (hstart.run hr.labelled (fun k b hb => ?_) fun k b hb ha => ?_).congr
      (fun k => ?_) rfl rfl fun _ _ h => h
    · rw [hsince]
      exact (hb.kept hkept).append
    · obtain ⟨-, -, k', -, hwaits, ha'⟩ := hr.labelled.blocks b hb
      obtain rfl := Option.some.inj (ha.symm.trans ha')
      obtain ⟨prel, hprel⟩ := Option.ne_none_iff_exists'.mp hwaits
      exact hgoing.opening htold hb ha (hstart.waiting hprel).1
    · rw [hsince, reached_append, hnew]

/-- What a function leaves when it has ended. -/
theorem ended (h : Supplied p n pending sections c) (htold : Told c.s.blk c.s.words) :
    Patched pending sections (Reached (c.s.since n)) (Opening (c.s.finish p).blk (c.s.since n))
      (c.s.finish p).blk := by
  obtain ⟨m, hm, -⟩ := returned_appends p c.s
  refine (h.patched htold).congr (fun _ => .rfl) ?_ ?_ fun _ _ hb => hb.finish p
  · rw [finish_blk]
    exact hm.pending
  · rw [finish_blk]
    exact hm.sections

/-- **A step of a run of any functions.** -/
theorem step (h : Supplied p n pending sections c) (htold : Told c.s.blk c.s.words)
    (hf : Fresh p c) (hs : c.step p = .ok c') (hstep : Step p c c') :
    Supplied p n pending sections c' := by
  have hsame : c'.s.words = c.s.words → c'.s.since n = c.s.since n := fun heq => by
    unfold State.since
    rw [heq]
  cases hstep with
  | @turn l loop lt stays next keeps dests =>
    obtain ⟨body, s₀, f, pr, before, hgoing⟩ := h.run l loop
    obtain ⟨obj, i, -, hwords, -⟩ := hf.turn_word loop lt stays hs keeps
    refine ⟨?_, fun hn => (by rw [next] at hn; cases hn), fun l₂ hl₂ => ?_⟩
    · rw [hwords, List.length_append]
      exact le_trans h.le (Nat.le_add_right _ _)
    · rw [next] at hl₂
      obtain rfl := Option.some.inj hl₂
      exact ⟨body, s₀, f, pr, before, hgoing.turn h.le hf loop lt stays hs keeps⟩
  | @leave l loop le next blk dests words =>
    refine ⟨words ▸ h.le, fun _ => ?_, fun l₂ hl₂ => (by rw [next] at hl₂; cases hl₂)⟩
    rw [hsame words, blk]
    exact h.ended htold
  | @cut l l' o obj s loop cuts registered known blk dests fnOf next st entered left words =>
    refine ⟨words ▸ h.le, fun hn => (by rw [next] at hn; cases hn), fun l₂ hl₂ => ?_⟩
    rw [next] at hl₂
    obtain rfl := Option.some.inj hl₂
    refine ⟨_, _, _, _, _, entered.running.going (n := n) (entered.addr.trans entered.st.symm) ?_⟩
    rw [hsame words, blk]
    exact h.ended htold
  | @enter l' o obj s loop named fnOf blk dests next entered words =>
    refine ⟨words ▸ h.le, fun hn => (by rw [next] at hn; cases hn), fun l₂ hl₂ => ?_⟩
    rw [next] at hl₂
    obtain rfl := Option.some.inj hl₂
    refine ⟨_, _, _, _, _, entered.running.going (n := n) (entered.addr.trans entered.st.symm) ?_⟩
    rw [hsame words, blk]
    exact h.idle loop
  | idle loop next blk dests words =>
    refine ⟨words ▸ h.le, fun _ => ?_, fun l₂ hl₂ => (by rw [next] at hl₂; cases hl₂)⟩
    rw [hsame words]
    rcases blk with hb | hb
    · rw [hb]
      exact h.idle loop
    · rw [hb]
      exact (h.idle loop).congr (fun _ => .rfl) rfl rfl fun _ _ hb => ⟨hb.lt, hb.ids, hb.opens⟩

theorem aside (h : Supplied p n pending sections c) (ha : Aside c.s t) :
    Supplied p n pending sections {c with s := t} := by
  have hsince : t.since n = c.s.since n := by
    unfold State.since
    rw [ha.words]
  refine ⟨?_, fun hl => ?_, fun l hl => ?_⟩
  · show n ≤ t.words.length
    rw [ha.words]
    exact h.le
  · show Patched pending sections (Reached (t.since n)) (Opening t.blk (t.since n)) t.blk
    rw [hsince, ha.blk]
    exact h.idle hl
  · obtain ⟨body, s₀, f, pr, before, hgoing⟩ := h.run l hl
    exact ⟨body, s₀, f, pr, before, hgoing.aside ha⟩

/-- With a new image. -/
theorem start (hl : c.loop = none) :
    Supplied p c.s.words.length c.s.blk.pending c.s.blk.sections c := by
  refine ⟨le_refl _, fun _ => ?_, fun l hl' => ?_⟩
  · rw [since_length]
    exact patched_nil _
  · rw [hl] at hl'
    cases hl'

/-- From the end of a function on. -/
theorem restart (hs : Step p c c') (hl : c.loop = some l) (hend : Cuts c.s l ∨ l.stop ≤ l.addr) :
    Supplied p c.s.words.length (c.s.finish p).blk.pending (c.s.finish p).blk.sections c' := by
  have hsince : c'.s.words = c.s.words → c'.s.since c.s.words.length = [] := fun heq => by
    rw [← heq]
    exact since_length c'.s
  cases hs with
  | @turn l' loop lt stays =>
    obtain rfl := Option.some.inj (hl.symm.trans loop)
    exact absurd hend (not_or.mpr ⟨stays, Nat.not_le.mpr lt⟩)
  | leave loop le next blk dests words =>
    refine ⟨le_of_eq (by rw [words]), fun _ => ?_, fun l₂ hl₂ => (by rw [next] at hl₂; cases hl₂)⟩
    rw [hsince words, blk]
    exact patched_nil _
  | @cut l₁ l' o obj s loop cuts registered known blk dests fnOf next st entered left words =>
    refine ⟨le_of_eq (by rw [words]), fun hn => (by rw [next] at hn; cases hn), fun l₂ hl₂ => ?_⟩
    rw [next] at hl₂
    obtain rfl := Option.some.inj hl₂
    have hpatched := patched_nil (b := Opening s.blk []) s.blk
    refine ⟨_, _, _, _, _, entered.running.going (n := c.s.words.length)
      (entered.addr.trans entered.st.symm) ?_⟩
    rw [hsince words, ← blk]
    exact hpatched
  | enter loop =>
    rw [hl] at loop
    cases loop
  | idle loop =>
    rw [hl] at loop
    cases loop

/-- **A word of data that waits for one address**: it gets the block that opens with the first word
there, and stays until then. -/
theorem slot (h : Supplied p n pending sections c) (htold : Told c.s.blk c.s.words)
    {x : String × Nat} (hmod : x.2 % 4 = 0)
    (hone : ∀ k' prel, pending.get? k' = some prel → x ∈ prel.secs → k' = k) :
    (Reached (c.s.since n) k → (∃ prel, pending.get? k = some prel ∧ x ∈ prel.secs) →
      ∃ w b, (c.s.since n).find? (·.addr = k) = some w ∧ Opens c.s.blk b w ∧
        (c.s.blk.sections x.1)[x.2 / 4]? = some (.blockAddress b)) ∧
    (¬ (Reached (c.s.since n) k ∧ ∃ prel, pending.get? k = some prel ∧ x ∈ prel.secs) →
      (c.s.blk.sections x.1)[x.2 / 4]? = (sections x.1)[x.2 / 4]?) := by
  have hp := h.patched htold
  refine ⟨fun hk ⟨prel, hprel, hx⟩ => ?_, fun hno => hp.kept x.1 (x.2 / 4) ?_⟩
  · obtain ⟨-, k', prel', b, -, hprel', hx', hb, hword⟩ := hp.held k prel hk hprel x hx
    obtain rfl := hone k' prel' hprel' hx'
    obtain ⟨w, hw, hopens⟩ := hb.opens
    exact ⟨w, b, hw, hopens, hword⟩
  · rintro k' prel hk' hprel w hw ⟨hsec, hoff⟩
    have hwmod := (hp.held k' prel hk' hprel w hw).1
    obtain rfl : w = x := Prod.ext hsec (by omega)
    obtain rfl := hone k' prel hprel hw
    exact hno ⟨hk', prel, hprel, hw⟩

end Supplied

/-! ### Runs -/

theorem Within.moves (h : Within p good looks c₀ c) : Moves p good looks c₀ c := by
  induction h with
  | start => exact .start
  | step _ hg hs ih => exact .step ih hg hs
  | look _ hl look ih => exact .look ih hl look

theorem Within.trans {c₁ : Config} (h : Within p good looks c₀ c₁) (h' : Within p good looks c₁ c) :
    Within p good looks c₀ c := by
  induction h' with
  | start => exact h
  | step _ hg hs ih => exact .step ih hg hs
  | look _ hl look ih => exact .look ih hl look

/-- A run without relocations of functions. -/
theorem Within.of_run (h : Run (Config.step p) good c₀ c) : Within p good looks c₀ c := by
  induction h with
  | start => exact .start
  | step _ hg hs ih => exact .step ih hg hs

theorem Told.init (pending : Map Nat PendingReloc) (sections : String → List Constant) :
    Told (Config.init pending sections).s.blk (Config.init pending sections).s.words :=
  ⟨fun _ hw => (nomatch hw), List.nodup_nil⟩

/-- **The words of every state.** -/
theorem Moves.told (hp : p.Aligned) (hgood : ∀ c, good c → Apart p c)
    (h₀ : Fresh p c₀ ∧ Told c₀.s.blk c₀.s.words) (h : Moves p good looks c₀ c) :
    Fresh p c ∧ Told c.s.blk c.s.words := by
  induction h with
  | start => exact h₀
  | step _ hg hs ih =>
    obtain ⟨hf, ht⟩ := ih
    obtain ⟨hstep, hf'⟩ := hf.step hp (hf.clean (hgood _ hg)) hs
    exact ⟨hf', ht.step hf hs hstep⟩
  | image pending sections _ idle done ih => exact ⟨ih.1.image idle, ih.2.marked, ih.2.apart⟩
  | look _ _ look ih =>
    have ha := look.aside
    refine ⟨ih.1.aside ha (look.maps ih.1.maps), ?_⟩
    show Told _ _
    rw [ha.blk, ha.words]
    exact ih.2

/-- Words are only added. -/
theorem Within.words (hp : p.Aligned) (hgood : ∀ c, good c → Apart p c) (hf : Fresh p c₀)
    (h : Within p good looks c₀ c) : Fresh p c ∧ c₀.s.words <+: c.s.words := by
  induction h with
  | start => exact ⟨hf, List.prefix_refl _⟩
  | step _ hg hs ih =>
    obtain ⟨hf, hwords⟩ := ih
    obtain ⟨hstep, hf'⟩ := hf.step hp (hf.clean (hgood _ hg)) hs
    refine ⟨hf', hwords.trans ?_⟩
    cases hstep with
    | turn loop lt stays next keeps =>
      obtain ⟨obj, i, -, heq, -⟩ := hf.turn_word loop lt stays hs keeps
      rw [heq]
      exact List.prefix_append _ _
    | leave _ _ _ _ _ words => rw [words]
    | cut _ _ _ _ _ _ _ _ _ _ _ words => rw [words]
    | enter _ _ _ _ _ _ _ words => rw [words]
    | idle _ _ _ _ words => rw [words]
  | look _ _ look ih =>
    have ha := look.aside
    refine ⟨ih.1.aside ha (look.maps ih.1.maps), ?_⟩
    show _ <+: _
    rw [ha.words]
    exact ih.2

/-- **The data of every state with the image.** -/
theorem Within.supplied (hp : p.Aligned) (hgood : ∀ c, good c → Apart p c)
    (h₀ : Fresh p c₀ ∧ Told c₀.s.blk c₀.s.words) (hs₀ : Supplied p n pending sections c₀)
    (h : Within p good looks c₀ c) : Supplied p n pending sections c := by
  induction h with
  | start => exact hs₀
  | step before hg hs ih =>
    obtain ⟨hf, ht⟩ := before.moves.told hp hgood h₀
    obtain ⟨hstep, -⟩ := hf.step hp (hf.clean (hgood _ hg)) hs
    exact ih.step ht hf hs hstep
  | look _ _ look ih => exact ih.aside look.aside

theorem Turning.apart (h : Turning c) : Apart p c := fun l _ hl hcuts => by
  obtain ⟨l', hl', -, hno⟩ := h
  obtain rfl := Option.some.inj (hl.symm.trans hl')
  exact absurd hcuts hno

/-- **Inside of a function.** -/
theorem Within.going (hp : p.Aligned) (hf : Fresh p c₀) (hn : n ≤ c₀.s.words.length)
    (hl : c₀.loop = some l) (h₀ : Going p n pending sections c₀.s l body s₀ f pr before)
    (h : Within p Turning looks c₀ c) : ∃ l', c.loop = some l' ∧ l'.st = l.st ∧
      Going p n pending sections c.s l' body s₀ f pr before := by
  induction h with
  | start => exact ⟨l, hl, rfl, h₀⟩
  | @step c c' hbefore hturning hs ih =>
    obtain ⟨hf, hwords⟩ := hbefore.words hp (fun _ => Turning.apart) hf
    obtain ⟨l₁, hl₁, hst, hgoing⟩ := ih
    obtain ⟨l₂, hl₂, hlt, hno⟩ := id hturning
    obtain rfl := Option.some.inj (hl₁.symm.trans hl₂)
    obtain ⟨hstep, -⟩ := hf.step hp (hf.clean hturning.apart) hs
    cases hstep with
    | @turn l₂ loop lt stays next keeps =>
      obtain rfl := Option.some.inj (hl₁.symm.trans loop)
      exact ⟨_, next, hst, hgoing.turn (le_trans hn hwords.length_le) hf loop lt stays hs keeps⟩
    | @leave l₂ loop le =>
      obtain rfl := Option.some.inj (hl₁.symm.trans loop)
      exact absurd hlt (Nat.not_lt.mpr le)
    | @cut l₂ _ _ _ _ loop cuts =>
      obtain rfl := Option.some.inj (hl₁.symm.trans loop)
      exact absurd cuts hno
    | enter loop =>
      rw [hl₁] at loop
      cases loop
    | idle loop =>
      rw [hl₁] at loop
      cases loop
  | look _ _ look ih =>
    obtain ⟨l₁, hl₁, hst, hgoing⟩ := ih
    exact ⟨l₁, hl₁, hst, hgoing.aside look.aside⟩

end RiscvSbt.Context
