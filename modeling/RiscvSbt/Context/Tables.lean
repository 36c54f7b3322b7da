import RiscvSbt.Block.Slots
import RiscvSbt.Context.Function

/-! Jump tables over whole runs.

The words that wait for labels are served as the instructions at the labels are translated, by
one function after the other. The blocks they get stay where they are, and the indirect
branches of the function of a block can all go to it. -/
namespace RiscvSbt.Context
open Library Block State

/-- No function is switched to from the middle of another one. -/
def Unswitched (c : Config) : Prop := ∀ l, c.loop = some l → ¬ Cuts c.s l

/-- An instruction at `k` has been translated. -/
def Config.Translated (c : Config) (k : Nat) : Prop := ∃ w ∈ c.s.words, w.addr = k

/-- A block starts at `k`: it has that address, and the instruction there is its first one. -/
structure Begins (t : Block.State) (b k : Nat) : Prop where
  addr : (t.bbs b).addr = some k
  first : ∃ q i r, (t.bbs b).insts = q ++ i :: r ∧ Quiet t q ∧ t.marks i.id = some k

section Runs
variable (p : Program) (pending : Map Nat PendingReloc) (sections : String → List Constant)

/-- In the run to `c` a function has ended that `b` is a block of, and every indirect branch in
the blocks of that function, with an address or without, can go to `b`. -/
def Listed (c : Config) (b : Nat) : Prop :=
  ∃ c₀ l₀ k, Config.Reach p Unswitched pending sections c₀ ∧
    Run (Config.step p) Unswitched c₀ c ∧ c₀.loop = some l₀ ∧ l₀.stop ≤ l₀.addr ∧
    c₀.s.blk.findBB k = some b ∧
    ∀ b', (∃ k', c₀.s.blk.findBB k' = some b') ∨ (∃ k', b' ∈ c₀.s.blk.ubbs k') →
      ∀ i ∈ (c.s.blk.bbs b').insts, i.kind = .indBr → b ∈ c.s.dests i.id

/-- A function that has ended has served the label `k` with the block `b`. -/
def Ended (c : Config) (k b : Nat) : Prop :=
  ∃ c₀ l₀, Config.Reach p Unswitched pending sections c₀ ∧ Run (Config.step p) Unswitched c₀ c ∧
    c₀.loop = some l₀ ∧ l₀.stop ≤ l₀.addr ∧ b ∈ c₀.s.blk.func.indBBs ∧
    (c₀.s.blk.bbs b).addr = some k

/-- What the functions that have ended have done to the table, and where the function that is
being translated has begun. -/
structure Serving (c : Config) : Prop where
  idle : c.loop = none →
    Patched pending sections c.Translated (Ended p pending sections c) c.s.blk
  run : ∀ l, c.loop = some l → ∃ body s₀ f pr passed, Running p c.s l body s₀ f pr ∧
    Patched pending sections passed (Ended p pending sections c) s₀ ∧
    ∀ k, c.Translated k ↔ passed k ∨ Past l.st l.addr k

end Runs

variable {p : Program} {pending : Map Nat PendingReloc} {sections : String → List Constant}
  {s : State} {l : Loop} {c c' : Config} {body : Nat → Inst} {s₀ : Block.State} {f : FnId}
  {pr k b : Nat} {passed : Nat → Prop} {block block' : Nat → Nat → Prop}

theorem Unswitched.clean (h : Unswitched c) : Clean c := fun l hl hcuts => absurd hcuts (h l hl)

theorem Ended.step (h : Ended p pending sections c k b) (hg : Unswitched c)
    (hs : c.step p = .ok c') : Ended p pending sections c' k b := by
  obtain ⟨c₀, l₀, hreach, hrun, hrest⟩ := h
  exact ⟨c₀, l₀, hreach, .step hrun hg hs, hrest⟩

/-- What a function in progress has served. -/
theorem Running.patched (h : Running p s l body s₀ f pr)
    (hp : Patched pending sections passed block s₀) (hold : ∀ k b, block k b → block' k b)
    (hnew : ∀ k, ∀ b ∈ s.blk.func.indBBs, (s.blk.bbs b).addr = some k → block' k b) :
    Patched pending sections (fun k => passed k ∨ Past l.st l.addr k) block' s.blk := by
  obtain ⟨-, -, -, hpend, hsec, -⟩ := start_kept s₀ f l.st pr
  exact (hp.congr (fun _ => .rfl) hpend hsec fun _ _ h => h).run h.labelled hold hnew

namespace Serving

theorem init : Serving p pending sections (Config.init pending sections) := by
  refine ⟨fun _ => ⟨fun k => ⟨?_, fun _ => rfl⟩, fun _ => rfl, fun _ _ _ => rfl, ?_⟩,
    fun l hl => (by cases hl)⟩
  · rintro ⟨w, hw, -⟩
    cases hw
  · rintro k prel ⟨w, hw, -⟩
    cases hw

/-- **A step of a run without switches.** -/
theorem step (h : Serving p pending sections c)
    (hreach : Config.Reach p Unswitched pending sections c)
    (hg : Unswitched c) (hs : c.step p = .ok c') (hstep : Step p c c') :
    Serving p pending sections c' := by
  have hended : ∀ k b, Ended p pending sections c k b → Ended p pending sections c' k b :=
    fun _ _ he => he.step hg hs
  have hsame : ∀ {w}, c'.s.words = w → ∀ k, c'.Translated k ↔ ∃ x ∈ w, x.addr = k := by
    rintro _ rfl k
    exact .rfl
  cases hstep with
  | @turn l loop lt stays next keeps dests words =>
    obtain ⟨body, s₀, f, pr, passed, hr, hpatched, htrans⟩ := h.run l loop
    refine ⟨fun hn => (by rw [next] at hn; cases hn), fun l₂ hl₂ => ?_⟩
    rw [next] at hl₂
    obtain rfl := Option.some.inj hl₂
    refine ⟨body, s₀, f, pr, passed, (keeps _ _ _ _ hr).2,
      hpatched.congr (fun _ => .rfl) rfl rfl hended, fun k => ?_⟩
    obtain ⟨w, hw, hwords⟩ := words
    rw [hsame hwords, Past.next hr.le hr.reach.mod, ← or_assoc, ← htrans]
    simp [Config.Translated, or_and_right, exists_or, hw, eq_comm]
  | @leave l loop le next blk dests words =>
    obtain ⟨body, s₀, f, pr, passed, hr, hpatched, htrans⟩ := h.run l loop
    refine ⟨fun _ => ?_, fun l₂ hl₂ => (by rw [next] at hl₂; cases hl₂)⟩
    have hp := hr.patched hpatched hended fun k b hb ha =>
      ⟨c, l, hreach, .step .start hg hs, loop, le, hb, ha⟩
    obtain ⟨m, hm, -⟩ := returned_appends p c.s
    refine hp.congr (fun k => ?_) ?_ ?_ fun _ _ h => h
    · rw [hsame words, ← htrans]
      exact .rfl
    · rw [blk, finish_blk]
      exact hm.pending
    · rw [blk, finish_blk]
      exact hm.sections
  | cut loop cuts => exact absurd cuts (hg _ loop)
  | @enter l' o obj s loop named fnOf blk dests next entered words =>
    refine ⟨fun hn => (by rw [next] at hn; cases hn), fun l₂ hl₂ => ?_⟩
    rw [next] at hl₂
    obtain rfl := Option.some.inj hl₂
    refine ⟨_, _, _, _, c.Translated, entered.running, ?_, fun k => ?_⟩
    · rw [blk]
      exact (h.idle loop).congr (fun _ => .rfl) rfl rfl hended
    · have hno : ¬ Past l'.st l'.addr k := fun hp => by
        have := hp.1
        have := hp.2.1
        have := entered.st
        have := entered.addr
        omega
      rw [hsame words]
      exact (or_iff_left hno).symm
  | idle loop next blk dests words =>
    refine ⟨fun _ => ?_, fun l₂ hl₂ => (by rw [next] at hl₂; cases hl₂)⟩
    refine (h.idle loop).congr (fun k => (hsame words k).symm) ?_ ?_ hended
    · rcases blk with hb | hb <;> rw [hb]
    · rcases blk with hb | hb <;> rw [hb]

end Serving

/-- **The table in every state of a run.** -/
theorem Config.Reach.serving (hp : p.Aligned) (h : Config.Reach p Unswitched pending sections c) :
    Fresh p c ∧ Serving p pending sections c := by
  unfold Config.Reach at h
  induction h with
  | start => exact ⟨.init pending sections, .init⟩
  | step hrun hg hs ih =>
    obtain ⟨hfresh, hserving⟩ := ih
    obtain ⟨hstep, hfresh'⟩ := hfresh.step hp hg.clean hs
    exact ⟨hfresh', hserving.step hrun hg hs hstep⟩

section Later
variable {t : Block.State} {e : Nat → List Nat}
  (hk : Kept (s.finish p).blk (s.finish p).dests t e)
include hk

/-- A block of a function has grown at most by the end of the function. -/
theorem Kept.later_insts {b : Nat} (hb : b < s.blk.nextBlock) :
    ∃ x, (t.bbs b).insts = (s.blk.bbs b).insts ++ x ∧ ∀ i ∈ x, i.kind ∈ s.ending p := by
  rw [hk.bbs b (by rw [finish_nextBlock]; exact hb)]
  exact finish_insts p s b

theorem Kept.later_marks {i : Nat} (hi : i < s.blk.nextInstr) : t.marks i = s.blk.marks i := by
  rw [hk.marks i (lt_of_lt_of_le hi (finish_nextInstr p s)), finish_marks p s hi]

variable (h : Running p s l body s₀ f pr)
include h

/-- Where a block begins. -/
theorem Running.begins {k b : Nat} (hb : s.blk.findBB k = some b) (hlt : k < l.addr) :
    Begins t b k := by
  obtain ⟨main, key, hinv, -⟩ := h.inv
  obtain ⟨hn, hbn, haddr⟩ := h.own.tracked k b hb
  refine ⟨?_, ?_⟩
  · obtain ⟨m, hm, -⟩ := returned_appends p s
    rw [hk.bbs b (by rw [finish_nextBlock]; exact hbn), finish_blk]
    exact (congrArg (fun x : FnId × Option Nat × Bool => x.2.1) (hm.tag b)).trans haddr
  · obtain ⟨q, i, r, hins, hq, hi⟩ := h.first_code hb hlt
    obtain ⟨x, hx, -⟩ := hk.later_insts hbn
    have hids : ∀ j ∈ (s.blk.bbs b).insts, j.id < s.blk.nextInstr := hinv.heap.ids b hn hbn
    rw [hins] at hids
    refine ⟨q, i, r ++ x, ?_, hq.grow fun j hj => ?_, ?_⟩
    · rw [hx, hins, List.append_assoc]
      rfl
    · exact hk.later_marks (hids j (List.mem_append_left _ hj))
    · rw [hk.later_marks (hids i (List.mem_append_right _ List.mem_cons_self))]
      exact hi

end Later

/-- **The block of a label.** -/
theorem Ended.begins (hp : p.Aligned) (h : Ended p pending sections c k b) (hl : c.loop = none) :
    Begins c.s.blk b k ∧ Listed p pending sections c b := by
  obtain ⟨c₀, l₀, hreach, hrun, hl₀, hend, hb, haddr⟩ := h
  have hf := hreach.fresh hp fun _ _ hg => hg.clean
  obtain ⟨body, s₀, f, pr, hr⟩ := hf.run l₀ hl₀
  obtain ⟨main, key, hinv, -⟩ := hr.inv
  have hkept := (hf.ended hp (fun _ _ hg => hg.clean) hl₀ (.inr hend)
    hrun).resolve_left fun heq => by
    rw [heq, hl₀] at hl
    cases hl
  have hfind := hr.served_find hb haddr
  obtain ⟨hn, hlt, k', hpass, -, hk'⟩ := hr.labelled.blocks b hb
  obtain rfl := Option.some.inj (haddr.symm.trans hk')
  refine ⟨hr.begins hkept hfind hpass.2.1, c₀, l₀, k, hreach, hrun, hl₀, hend, hfind,
    fun b' hb' i hi hki => ?_⟩
  obtain ⟨hn', hlt'⟩ : s₀.nextBlock ≤ b' ∧ b' < c₀.s.blk.nextBlock := by
    rcases hb' with ⟨x, hx⟩ | ⟨x, hx⟩
    · exact ⟨(hr.own.tracked x b' hx).1, (hr.own.tracked x b' hx).2.1⟩
    · exact ⟨(hr.own.helper x b' hx).1, (hr.own.helper x b' hx).2.1⟩
  obtain ⟨y, hy, hkinds⟩ := hkept.later_insts hlt'
  rw [hy] at hi
  have hi := (List.mem_append.mp hi).resolve_right fun hi => (ending_kinds (hkinds i hi)).2 hki
  have hid := hinv.heap.ids b' hn' hlt' i hi
  rw [hkept.dests _ (lt_of_lt_of_le hid (finish_nextInstr p c₀.s)), finish_dests,
    if_pos (hr.own.indirect b' hn' hlt' i hi hki)]
  exact List.mem_append_right _ hb

/-- **Every slot is patched.** For words registered for labels, each label with one symbol, and
any run without switches, the words never stop the translation if they are aligned and inside
of their sections. Between two functions, once an instruction at every label has been
translated, nothing is pending, each word registered holds the address of a block that begins
at a label the word was registered for and that the indirect branches of its function can go to,
and all other words are as they were. -/
theorem slots_patched (p : Program) (hp : p.Aligned) (slots : List Slot)
    (sections : String → List Constant)
    (hsym : ∀ x ∈ slots, ∀ y ∈ slots, x.label = y.label → x.sym = y.sym)
    (hoffs : ∀ r ∈ slots, r.offs % 4 = 0 ∧ r.offs / 4 < (sections r.sec).length) :
    ∃ pending, addSlots Map.empty slots = .ok pending ∧
      ∀ c, Config.Reach p Unswitched pending sections c →
        (∀ k prel b, c.s.blk.pending.get? k = some prel →
          ∃ secs, prel.secs.foldlM (patch b) c.s.blk.sections = .ok secs) ∧
        (c.loop = none → (∀ r ∈ slots, c.Translated r.label) →
          c.s.blk.pending = Map.empty ∧
          (∀ r ∈ slots, ∃ r' ∈ slots, r'.word = r.word ∧
            ∃ b, (c.s.blk.sections r.sec)[r.offs / 4]? = some (.blockAddress b) ∧
              Begins c.s.blk b r'.label ∧ Listed p pending sections c b) ∧
          ∀ name, (c.s.blk.sections name).length = (sections name).length ∧
            ∀ i, (∀ r ∈ slots, ¬ (r.sec = name ∧ r.offs / 4 = i)) →
              (c.s.blk.sections name)[i]? = (sections name)[i]?) := by
  obtain ⟨pending, hpend, hreg⟩ := addSlots_registered slots hsym
  refine ⟨pending, hpend, fun c hreach => ?_⟩
  obtain ⟨hfresh, hserving⟩ := hreach.serving hp
  refine ⟨fun k prel b hk => ?_, fun hl hall => ?_⟩
  · obtain ⟨passed, block, hpatched⟩ : ∃ passed block,
        Patched pending sections passed block c.s.blk := by
      cases hl : c.loop with
      | none => exact ⟨_, _, hserving.idle hl⟩
      | some l =>
        obtain ⟨body, s₀, f, pr, passed, hr, hpatched, -⟩ := hserving.run l hl
        exact ⟨_, fun _ _ => True, hr.patched hpatched
          (fun _ _ _ => trivial) fun _ _ _ _ => trivial⟩
    refine patches_ok fun w hw => ?_
    obtain ⟨r, hr, -, rfl⟩ := ((hreg.entry k prel (hpatched.waiting hk).2).2.1 w).mp hw
    rw [hpatched.length]
    exact hoffs r hr
  · have hpatched := hserving.idle hl
    have hlabel : ∀ k prel, pending.get? k = some prel → c.Translated k := fun k prel hk => by
      obtain ⟨⟨r, hr, rfl⟩, -⟩ := hreg.entry k prel hk
      exact hall r hr
    refine ⟨Map.eq_empty fun k prel hk => ?_, fun r hr => ?_, fun name => ⟨hpatched.length name,
      fun i hi => hpatched.kept name i fun k prel _ hk w hw heq => ?_⟩⟩
    · obtain ⟨hno, hk⟩ := hpatched.waiting hk
      exact hno (hlabel k prel hk)
    · obtain ⟨prel, hprel⟩ := Option.ne_none_iff_exists'.mp (hreg.present r hr)
      obtain ⟨-, k, prel', b, -, hk, hw, hended, hword⟩ := hpatched.held r.label prel
        (hall r hr) hprel r.word (((hreg.entry _ prel hprel).2.1 _).mpr ⟨r, hr, rfl, rfl⟩)
      obtain ⟨r', hr', rfl, hword'⟩ := ((hreg.entry k prel' hk).2.1 _).mp hw
      exact ⟨r', hr', hword', b, hword, hended.begins hp hl⟩
    · obtain ⟨r, hr, -, rfl⟩ := ((hreg.entry k prel hk).2.1 w).mp hw
      exact hi r hr heq

/-- An indirect jump, and two places to go to. -/
def switchProgram : Program where
  sections := [{
    size := 16
    symbols := [{name := "a", addr := 0}]
    inst := fun
      | 0 => .straight 1
      | 4 => .ijump 1
      | _ => .ret 1 }]

/-- Two words wait for the label at 8, and one for the label at 12. -/
def switchSlots : List Slot :=
  [⟨8, "L8", ".rodata", 0⟩, ⟨12, "L12", ".rodata", 4⟩, ⟨8, "L8", ".data", 4⟩]

def switchSections : String → List Constant := fun name =>
  if name = ".rodata" then [.word 1234, .word 1234]
  else if name = ".data" then [.word 5, .word 1234]
  else []

theorem switch_patched : ∃ pending c, addSlots Map.empty switchSlots = .ok pending ∧
    Config.Reach switchProgram Unswitched pending switchSections c ∧ c.loop = none ∧
    c.s.blk.pending = Map.empty ∧ ∀ r ∈ switchSlots, ∃ r' ∈ switchSlots, r'.word = r.word ∧
      ∃ b, (c.s.blk.sections r.sec)[r.offs / 4]? = some (.blockAddress b) ∧
        Begins c.s.blk b r'.label ∧ Listed switchProgram pending switchSections c b := by
  obtain ⟨pending, hpend, h⟩ := slots_patched switchProgram (fun sec hsec sym hsym _ => by
    obtain rfl := List.mem_singleton.mp hsec
    obtain rfl := List.mem_singleton.mp hsym
    rfl) switchSlots switchSections (by decide) (by decide)
  obtain ⟨c, hc, hP⟩ := checks_spec (P := fun c => c.loop = none ∧
      ∀ r ∈ switchSlots, ∃ w ∈ c.s.words, w.addr = r.label)
    (show (Config.init ((addSlots Map.empty switchSlots).toOption.getD Map.empty)
      switchSections).checks switchProgram 7 _ = true by decide +kernel)
  obtain ⟨hl, hall⟩ := of_decide_eq_true hP
  have hreach : Config.Reach switchProgram (fun c => c.cutting = false)
      ((addSlots Map.empty switchSlots).toOption.getD Map.empty) switchSections c :=
    reach_uncut (by decide +kernel) hc
  rw [hpend] at hreach
  have hreach : Config.Reach switchProgram Unswitched pending switchSections c :=
    hreach.mono fun _ hcut _ => not_cuts hcut
  obtain ⟨hnone, hslots, -⟩ := (h c hreach).2 hl hall
  exact ⟨pending, c, hpend, hreach, hl, hnone, hslots⟩

end RiscvSbt.Context
