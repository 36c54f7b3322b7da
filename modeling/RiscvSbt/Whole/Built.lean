import RiscvSbt.Context.Compiled
import RiscvSbt.Whole.Simulation

/-! The module that a section is translated to.

Where every function of a section goes on in itself until it returns or is left by a tail call, the
translation of the section is a module whose functions are routines (`Ending.routine`), and whose
calls are of functions that have the code of their targets. Entered where the guest is, it does what
the guest does (`program_simulates`), and ends if and only if the guest does (`program_ends`). -/
namespace RiscvSbt.Whole
open Library Block
open Context hiding Inv Inside

/-- The module that a translation has made. -/
def Module.made (text : Text) (sec : Context.Section) (host : Syscall.Host) (s : Context.State) :
    Module where
  text := text
  inst := sec.inst
  blk := s.blk
  callee := s.callee sec.inst
  host := host

/-! ### A function that has ended -/

/-- A function at its end, with the places of its code, and what has become of it in the module. -/
structure Ending (p : Program) (M : Module) (s : Context.State) (l : Loop)
    (s₀ : Block.State) (f : FnId)
    (pr : Nat) (d : Nat → List Nat) (first : Nat → Nat) : Prop where
  running : Running p s l M.inst s₀ f pr
  lt : l.st < l.addr
  inside : Block.Inside M.inst l.st l.addr
  fitted : Fitted M.inst s₀
  kept : Kept (s.finish p).blk (s.finish p).dests M.blk d
  base : s₀.nextInstr ≤ s.blk.nextInstr
  placed : Placed M.inst s₀.nextBlock l.st s₀.nextInstr l.addr s.blk first

namespace Ending
variable {p : Program} {M : Module} {s : Context.State} {l : Loop} {s₀ : Block.State} {f : FnId}
  {pr : Nat} {d : Nat → List Nat} {first : Nat → Nat} {a b c i m : Nat}
  (h : Ending p M s l s₀ f pr d first)
include h

/-- The last block is closed already. -/
theorem returned : s.returned p = s.blk := by
  obtain ⟨main, key, hinv, -⟩ := h.running.inv
  have hle := h.lt
  have hmod := h.running.reach.mod
  obtain ⟨a, ha⟩ : ∃ a, l.addr = a + 4 := ⟨l.addr - 4, by omega⟩
  have hin := h.inside
  rw [ha] at hinv hin
  have hst : l.st ≤ a := by omega
  have hmain : s.blk.bld.insertBlock = main := by
    refine hinv.insert.resolve_right fun ⟨c, hc, hmem⟩ => ?_
    obtain ⟨h₁, h₂, h₃, h₄⟩ := hinv.helpers c _ hmem
    obtain rfl : c = a := by omega
    have hf := Act.falls_of_leaves h₄
    rw [hin.last h₁ h₃] at hf
    cases hf
  have hterm : s.blk.insertBB.terminated = true := by
    show (terminator (s.blk.bbs s.blk.bld.insertBlock).insts).isSome = true
    rw [hmain]
    exact hinv.terminated hst hin
  unfold Context.State.returned
  rw [if_pos hterm]

theorem insts (hb : b < s.blk.nextBlock) : (M.blk.bbs b).insts = (s.blk.bbs b).insts := by
  rw [h.kept.bbs b (by rw [finish_nextBlock]; exact hb), finish_blk, h.returned]

theorem marks (hi : i < s.blk.nextInstr) : M.blk.marks i = s.blk.marks i :=
  h.kept.later_marks hi

/-- Before the function was translated there were these marks. -/
theorem marks_before (hi : i < s₀.nextInstr) : M.blk.marks i = s₀.marks i :=
  (h.marks (lt_of_lt_of_le hi h.base)).trans ((h.running.kept (.refl s₀ d)).marks i hi)

/-- The mark of an instruction of the function. -/
theorem mark (h₁ : s₀.nextInstr ≤ i) (h₂ : i < s.blk.nextInstr) :
    M.blk.marks i = some a ↔ Past l.st l.addr a ∧ i = first a := by
  rw [h.marks h₂]
  exact h.placed.mark i a h₁ h₂

theorem origin (ha : Past l.st l.addr a) (hm : m < (M.inst a).ops) :
    origin M.blk.marks (first a + m) = some (a, m) := by
  obtain ⟨h₁, h₂, h₃⟩ := h.placed.start a ha
  refine origin_eq_some.mpr ⟨Nat.le_add_left _ _, ?_, fun j hj hj' => ?_⟩
  · rw [Nat.add_sub_cancel]
    exact (h.mark h₁ h₂).mpr ⟨ha, rfl⟩
  · rw [Nat.add_sub_cancel] at hj
    cases hmark : M.blk.marks j with
    | none => rfl
    | some c =>
      -- The pieces of two instructions do not overlap.
      obtain ⟨hc, rfl⟩ := (h.mark (by omega) (by omega)).mp hmark
      rcases Nat.lt_trichotomy a c with hac | rfl | hac
      · have := h.placed.apart a c ha hc hac
        omega
      · omega
      · have := h.placed.apart c a hc ha hac
        omega

theorem owned (hn : s₀.nextBlock ≤ b) (hb : b < s.blk.nextBlock) {j : Block.Instr}
    (hj : j ∈ (s.blk.bbs b).insts) : Owned M l.st l.addr first j := by
  obtain ⟨main, key, hinv, -⟩ := h.running.inv
  have hid : j.id < s.blk.nextInstr := hinv.heap.ids b hn hb j hj
  have hbase : s₀.nextInstr ≤ j.id := h.placed.ids j ⟨b, hn, hb, hj⟩
  refine ⟨fun a ha => ?_, fun hk hout => ?_⟩
  · obtain ⟨hpast, heq⟩ := (h.mark hbase hid).mp ha
    refine ⟨hpast, heq, fun hpos => ?_⟩
    obtain ⟨c, hc, hclt, hin⟩ := (h.placed.code a hpast hpos).block
    have hmem : (⟨first a, .op⟩ : Block.Instr) ∈ (s.blk.bbs c).insts :=
      hin.subset (mem_piece.mpr ⟨rfl, le_refl _, Nat.lt_add_of_pos_right hpos⟩)
    obtain rfl := hinv.heap.disjoint c b hc hclt hn hb _ hmem j hj heq.symm
    rw [← List.inj_on_of_nodup_map (hinv.heap.nodup c hn hb) hmem hj heq.symm]
  · unfold Module.content
    cases ho : Whole.origin M.blk.marks j.id with
    | none => rfl
    | some o =>
      obtain ⟨a, m⟩ := o
      dsimp only
      rw [if_neg]
      intro hm
      obtain ⟨hle, ha, -⟩ := origin_eq_some.mp ho
      by_cases hold : j.id - m < s₀.nextInstr
      · rw [h.marks_before hold] at ha
        have := h.fitted _ a hold ha
        omega
      · obtain ⟨hpast, heq⟩ := (h.mark (Nat.not_lt.mp hold) (by omega)).mp ha
        exact hout _ ⟨a, hpast, by omega, rfl⟩ (mem_piece.mpr ⟨hk, by omega, by omega⟩)

/-- A block of a function that has ended. -/
theorem block (hb : s.blk.findBB c = some b) (hc : c < l.addr) :
    ((terminator (M.blk.bbs b).insts).isSome ∧
      ∃ e, Code p.opts M.inst (M.view s.blk.func) c (M.blk.bbs b).insts e ∧ c < e) ∧
    Segmented (Coded M.inst l.st l.addr first) (M.blk.bbs b).insts ∧
    ∀ i ∈ (M.blk.bbs b).insts, Owned M l.st l.addr first i := by
  obtain ⟨hn, hlt, -⟩ := h.running.own.tracked c b hb
  obtain ⟨main, key, hinv, -⟩ := h.running.inv
  rw [h.insts hlt]
  refine ⟨?_, h.placed.segmented hinv.heap hn hlt, fun i hi => h.owned hn hlt hi⟩
  have hgrows : Grows s.blk (M.view s.blk.func) := ⟨fun _ _ h => h, fun _ _ h => h⟩
  have hgrow : ∀ {e}, Code p.opts M.inst s.blk c (s.blk.bbs b).insts e →
      Code p.opts M.inst (M.view s.blk.func) c (s.blk.bbs b).insts e := fun hcode =>
    hcode.grow hgrows fun i hi => h.marks (hinv.heap.ids b hn hlt i hi)
  by_cases hk : c = key
  · subst hk
    obtain rfl : main = b := Option.some.inj (hinv.key.symm.trans hb)
    refine ⟨?_, l.addr, hgrow hinv.code, hc⟩
    have hmod := h.running.reach.mod
    obtain ⟨a, ha⟩ : ∃ a, l.addr = a + 4 := ⟨l.addr - 4, by have := h.lt; omega⟩
    have hin := h.inside
    rw [ha] at hinv hin
    exact hinv.terminated (by have := h.lt; omega) hin
  · rcases (hinv.rest c b hb hk).2 with hs | ⟨hle, -⟩
    · obtain ⟨e, hcode, hlt', -⟩ := hs.code
      exact ⟨hs.terminated, e, hgrow hcode, hlt'⟩
    · omega

/-- **A function that has ended is a routine.** -/
def routine (bound : l.addr ≤ 2 ^ 32)
    (calls : ∀ a t, Past l.st l.addr a → Context.State.callee? (M.inst a).act = some t →
      ∃ f, M.callee a = some f) : Routine M p.opts where
  blocks := s.blk.func
  st := l.st
  e := l.addr
  first := first
  aligned := h.running.aligned
  bound := bound
  next := h.inside
  origin _ _ ha hm := h.origin ha hm
  block _ _ hb hc := h.block hb hc
  calls := calls

end Ending

/-! ### The module of a translation -/

section Made
variable {p : Program} {sec : Context.Section} {c : Config} {f : FnId} {k : Nat} {text : Text}
  {host : Syscall.Host}

theorem body_first (hp : p.sections = [sec]) : p.body 0 = sec.inst := by
  unfold Program.body
  rw [hp]
  rfl

/-- **Every function of the module is a routine**, from the instruction on that it begins with. -/
theorem made_enters (hp : p.sections = [sec]) (hr : Ranges p c) (hl : c.loop = none)
    (hb : Body c.s.blk f k) : Enters (Module.made text sec host c.s) p.opts f k := by
  have hlay : c.s.blk.layout f ≠ [] := by
    obtain ⟨b, rest, hlay, -⟩ := hb
    rw [hlay]
    exact nofun
  obtain ⟨k', e, hc, hrange⟩ := (hr.idle hl).code f hlay
  obtain ⟨rfl, hlt⟩ := hc.begins hb
  have hcalls := hr.calls
  unfold Compiled at hc
  obtain ⟨hin, hbound, hpassed⟩ := hrange
  rw [body_first hp] at hc hin hcalls
  obtain ⟨s, l, s₀, pr, rest, hrun, rfl, rfl, hempty, hfit, hkept, hlay, -⟩ := hc
  obtain ⟨hbase, first, hplaced⟩ := hrun.reach.placed hrun.aligned
  have hend : Ending p (Module.made text sec host c.s) s l s₀ f pr c.s.dests first :=
    ⟨hrun, hlt, hin, hfit, hkept, hbase, hplaced⟩
  obtain ⟨rest', hentry⟩ := hrun.finish_entry hlt hempty
  refine ⟨hend.routine hbound fun a t ha ht => (callee_spec ht hcalls).2 (hpassed a ha), rfl, hlt,
    s₀.nextBlock, rest' ++ rest, ?_, hrun.find_entry⟩
  show c.s.blk.layout f = _
  rw [hlay, hentry, List.cons_append]

theorem made_complete (hp : p.sections = [sec]) (hr : Ranges p c) (hl : c.loop = none)
    (hcov : text.Covers sec.inst) (hcalls : ∀ k f, (k, f) ∈ c.s.calls → Body c.s.blk f k) :
    Complete (Module.made text sec host c.s) p.opts := by
  refine ⟨hcov, fun a k f hk hf => made_enters hp hr hl (hcalls k f ?_)⟩
  have hwords := hr.calls
  rw [body_first hp] at hwords
  exact (callee_spec hk hwords).1 f hf

end Made

/-! ### The guest and the module -/

/-- A section that has been translated to its end, to what `text` emits. -/
structure Translation (p : Program) (sec : Context.Section) (text : Text) (c : Config) : Prop where
  sections : p.sections = [sec]
  aligned : p.Aligned
  sorted : sec.symbols.Pairwise fun x y => x.addr ≤ y.addr
  /-- The calls are of functions in the section. -/
  calls : ∀ a k, Context.State.callee? (sec.inst a).act = some k → k < sec.size
  covers : text.Covers sec.inst
  reach : ∃ pending labels, Config.Reach p (fun c => Answers p sec c ∧ Contained p c)
    pending labels c
  loop : c.loop = none
  todo : c.todo = []

/-- The guest at the start of a function. -/
def Thread.entering (v : Isa.State) (k : Isa.Word) : Thread := {hart := {v with pc := k}}

/-- The module before a function is called from outside. -/
def Process.idle (v : Isa.State) : Process :=
  {rest := [], env := fun _ => .undef, stack := [], x := v.x, mem := v.mem, trace := []}

section Program
variable {p : Program} {sec : Context.Section} {text : Text} {c : Config}
  (h : Translation p sec text c) {f : FnId} {k : Isa.Word} (hb : Body c.s.blk f k.toNat)
    (host : Syscall.Host) (v : Isa.State)
include h hb

/-- A function is entered where the guest is. -/
theorem Translation.enters : ∃ s, (Module.made text sec host c.s).enter f (.idle v) = some s ∧
    Matches (Module.made text sec host c.s) p.opts (.entering v k) s := by
  obtain ⟨pending, labels, hreach⟩ := h.reach
  have hr := hreach.ranges h.sections h.aligned h.sorted
  obtain ⟨F, hst, hlt, b, rest, hlay, hfind⟩ :
      Enters (Module.made text sec host c.s) p.opts f k.toNat :=
    made_enters h.sections hr h.loop hb
  refine ⟨{Process.idle v with rest := (c.s.blk.bbs b).insts}, ?_, .running F rfl ?_ .nil rfl rfl⟩
  · show (c.s.blk.layout f).head?.map _ = _
    rw [show c.s.blk.layout f = b :: rest from hlay]
    rfl
  · exact .block hfind ⟨hst ▸ le_refl _, hst ▸ hlt, congrArg (· % 4) hst.symm⟩

omit hb in
theorem Translation.complete : Complete (Module.made text sec host c.s) p.opts := by
  obtain ⟨pending, labels, hreach⟩ := h.reach
  have hr := hreach.ranges h.sections h.aligned h.sorted
  have hanswers : Config.Reach p (Answers p sec) pending labels c := hreach.mono fun _ hg => hg.1
  have ha := hanswers.answered h.sections h.aligned h.sorted h.calls
  exact made_complete h.sections hr h.loop h.covers fun _ _ hc => ha.body h.loop h.todo hc

end Program

/-- **The translated program does what the guest does.** However far the guest gets from the start
of a function by instructions that are what the translation takes them for, the module gets from the
entry of the LLVM function to the same registers and memory, and asks the host for what the guest
asked the kernel for. -/
theorem program_simulates (p : Program) (sec : Context.Section) (text : Text) (c : Config)
    (h : Translation p sec text c) (f : FnId) (k : Isa.Word) (hb : Body c.s.blk f k.toNat)
    (host : Syscall.Host) (v : Isa.State) (n : Nat) (g : Thread)
    (hfine : Stays (Thread.step host.kernel text) (Thread.Fine text) n (.entering v k))
    (hn : steps (Thread.step host.kernel text) n (.entering v k) = some g) :
    ∃ s m s', (Module.made text sec host c.s).enter f (.idle v) = some s ∧ n ≤ m ∧
      steps (Module.made text sec host c.s).step m s = some s' ∧ s'.guest = g.hart.toState ∧
      s'.trace = g.trace := by
  obtain ⟨s, hs, hmatch⟩ := h.enters hb host v
  obtain ⟨m, s', hle, hm, hmatch'⟩ := (h.complete host).simulates.steps hmatch hfine hn
  exact ⟨s, m, s', hs, hle, hm, hmatch'.guest, hmatch'.trace⟩

/-- **The translated program asks the host for nothing else**: whatever it has asked for, the guest
asks for at some time, and for what it asked before just as before. -/
theorem program_asks (p : Program) (sec : Context.Section) (text : Text) (c : Config)
    (h : Translation p sec text c) (f : FnId) (k : Isa.Word) (hb : Body c.s.blk f k.toNat)
    (host : Syscall.Host) (v : Isa.State)
    (hfine : ∀ n, Stays (Thread.step host.kernel text) (Thread.Fine text) n (.entering v k)) :
    ∃ s, (Module.made text sec host c.s).enter f (.idle v) = some s ∧
      ∀ m s', steps (Module.made text sec host c.s).step m s = some s' →
        ∃ n g, steps (Thread.step host.kernel text) n (.entering v k) = some g ∧
        s'.trace <:+ g.trace := by
  obtain ⟨s, hs, hmatch⟩ := h.enters hb host v
  refine ⟨s, hs, fun m s' hm => ?_⟩
  obtain ⟨n, g, l, t, hn, hl, hmatch'⟩ := (h.complete host).simulates.catches_up hmatch hfine hm
  exact ⟨n, g, hn, hmatch'.trace ▸ Module.steps_trace hl⟩

/-! ### A program -/

/-- A function that calls another one, which counts down to zero, and then writes and exits. -/
def countText : Text where
  inst
    | 0 => some (.comp (.opImm .addi 10 0 2))
    | 4 => some (.jal 1 12)
    | 8 => some (.comp (.opImm .addi 17 0 64))
    | 12 => some .ecall
    | 16 => some (.comp (.opImm .addi 17 0 93))
    | 20 => some .ecall
    | 24 => some (.jalr 0 1 0)
    | 28 => some (.comp (.opImm .addi 10 10 (-1)))
    | 32 => some (.branch .bne 10 0 (-2))
    | 36 => some (.jalr 0 1 0)
    | _ => none

def countSection : Context.Section where
  size := 40
  symbols := [{name := "a", addr := 0}, {name := "b", addr := 28}]
  inst
    | 0 | 8 | 16 => .straight 2
    | 4 => .call 2 28
    | 12 | 20 => .straight 9
    | 28 => .straight 3
    | 32 => .branch 2 28 rfl
    | _ => .ret 1

/-- Functions that end here are contained. -/
def contained (p : Program) (c : Config) : Bool :=
  match c.loop with
  | some l => (l.addr < l.stop && !c.cutting) ||
      (l.addr ≤ 2 ^ 32 && (List.range l.addr).all fun a =>
      a < l.st || a % 4 ≠ 0 || [true, false].all fun taken =>
        ((p.body 0 a).act.succ? a taken).all fun c => l.st ≤ c && c < l.addr && c % 4 = 0)
  | none => true

theorem contained_spec {p : Program} {c : Config} (h : contained p c = true) : Contained p c := by
  intro l hl hend
  unfold contained at h
  rw [hl] at h
  rcases Bool.or_eq_true_iff.mp h with h | h
  · obtain ⟨hlt, hcut⟩ := Bool.and_eq_true_iff.mp h
    rcases hend with hcuts | hge
    · exact absurd hcuts (not_cuts ((Bool.not_eq_true' _).mp hcut) hl)
    · exact absurd (of_decide_eq_true hlt) (Nat.not_lt.mpr hge)
  · obtain ⟨hbound, hall⟩ := Bool.and_eq_true_iff.mp h
    refine ⟨fun a taken c h₁ h₂ h₃ hs => ?_, of_decide_eq_true hbound⟩
    have ha := List.all_eq_true.mp hall a (List.mem_range.mpr h₂)
    have ha : [true, false].all _ = true :=
      (Bool.or_eq_true_iff.mp ha).resolve_left (by simp [h₁, h₃])
    have htaken := List.all_eq_true.mp ha taken (by cases taken <;> simp)
    rw [hs] at htaken
    simpa [and_assoc] using htaken

theorem count_covers : countText.Covers countSection.inst := by
  intro a e he
  have hall : ∀ x ∈ [0, 4, 8, 12, 16, 20, 24, 28, 32, 36], ∀ e ∈ countText.emit x,
      (countSection.inst x).ops = e.ops.length ∧ (countSection.inst x).act = e.act := by decide
  refine hall a ?_ e he
  unfold Text.emit countText at he
  dsimp only at he
  split at he
  case h_11 => cases he
  all_goals simp

theorem count_translation : ∃ c, Translation {sections := [countSection]} countSection countText c ∧
    Body c.s.blk 0 0 := by
  let p : Program := {sections := [countSection]}
  obtain ⟨c, hc, hP⟩ := checks_spec (P := fun c => c.loop = none ∧ c.todo = [] ∧
      (c.s.blk.layout 0).head? = some 0 ∧ (c.s.blk.bbs 0).addr = some 0 ∧
      (c.s.blk.bbs 0).insts.head? = some ⟨0, .op⟩ ∧ c.s.blk.marks 0 = some 0)
    (show (Config.init Library.Map.empty fun _ => []).checks p 15 _ = true by decide +kernel)
  obtain ⟨hl, htodo, hlay, haddr, hinsts, hmark⟩ := of_decide_eq_true hP
  have hgood : ∀ m, m < 15 → (Config.init Library.Map.empty fun _ => []).checks p m
      (fun c => c.answers countSection && contained p c) = true := by decide +kernel
  have hreach : Config.Reach p (fun c => Answers p countSection c ∧ Contained p c) Library.Map.empty
      (fun _ => []) c := Run.start.iterate 15 (fun m hm d hd => by
    obtain ⟨d', hd', ha⟩ := checks_spec (hgood m hm)
    obtain rfl := Except.ok.inj (hd.symm.trans hd')
    obtain ⟨ha, hin⟩ := Bool.and_eq_true_iff.mp ha
    exact ⟨answers_spec ha, contained_spec hin⟩) hc
  refine ⟨c, ⟨rfl, fun sec hsec sym hsym _ => ?_, by decide, fun a k hk => ?_, count_covers,
    ⟨_, _, hreach⟩, hl, htodo⟩, ?_⟩
  · obtain rfl := List.mem_singleton.mp hsec
    have hall : ∀ sym ∈ countSection.symbols, sym.addr % 4 = 0 := by decide
    exact hall sym hsym
  · unfold countSection at hk ⊢
    dsimp only at hk
    split at hk
    case h_4 =>
      obtain rfl := Option.some.inj hk
      decide
    all_goals cases hk
  · obtain ⟨rest, hlay⟩ := List.head?_eq_some_iff.mp hlay
    obtain ⟨r, hr⟩ := List.head?_eq_some_iff.mp hinsts
    exact ⟨0, rest, hlay, haddr, [], _, r, hr, fun i hi => (nomatch hi), hmark⟩

/-- All registers and memory are zero. -/
def zero : Isa.State := ⟨fun _ => 0, fun _ => 0⟩

/-- A host whose kernel answers seven. -/
def seven : Syscall.Host := ⟨fun _ _ => 7, fun _ => ⟨fun _ => 0, 0, []⟩⟩

/-- What was asked for, without memory. -/
def asked (trace : List Syscall.Event) : List (Syscall.Service × List Isa.Word) :=
  trace.map fun e => (e.service, e.args)

/-- The guest exits after eleven instructions, with what its write has returned. -/
theorem count_runs : Stays (Thread.step seven.kernel countText)
    (Thread.Fine countText) 12 (.entering zero 0) ∧
    ∃ g, steps (Thread.step seven.kernel countText) 11 (.entering zero 0) =
    some g ∧ g.ended = true ∧
      asked g.trace = [(.exit, [7]), (.write, [0, 0, 0])] := by
  have hfine : ∀ m < 12, (steps (Thread.step seven.kernel countText) m (.entering zero 0)).all
      (fun g => decide (g.Fine countText)) = true := by decide +kernel
  have hend : (steps (Thread.step seven.kernel countText) 11 (.entering zero 0)).any
      (fun g => g.ended && asked g.trace = [(.exit, [7]), (.write, [0, 0, 0])]) =
        true := by decide +kernel
  refine ⟨fun m hm u hu => ?_, ?_⟩
  · have h := hfine m hm
    rw [hu] at h
    exact of_decide_eq_true h
  · obtain ⟨g, hg, hand⟩ := (Option.any_eq_true _ _).mp hend
    obtain ⟨hended, hasked⟩ := Bool.and_eq_true_iff.mp hand
    exact ⟨g, hg, hended, of_decide_eq_true hasked⟩

/-- The guest is fine, whether it has exited or not. -/
theorem count_fine (n : Nat) :
    Stays (Thread.step seven.kernel countText) (Thread.Fine countText) n (.entering zero 0) := by
  obtain ⟨hfine, g, hg, hended, -⟩ := count_runs
  refine hfine.of_ends hg ?_ n
  unfold Thread.step
  rw [if_pos hended]

theorem count_simulates : ∃ c s m s', Translation {sections := [countSection]}
    countSection countText c ∧
    (Module.made countText countSection seven c.s).enter 0 (.idle zero) = some s ∧ 11 ≤ m ∧
    steps (Module.made countText countSection seven c.s).step m s = some s' ∧
    asked s'.trace = [(.exit, [7]), (.write, [0, 0, 0])] := by
  obtain ⟨c, hc, hb⟩ := count_translation
  obtain ⟨-, g, hg, -, hasked⟩ := count_runs
  obtain ⟨s, m, s', hs, hm, hs', -, htrace⟩ :=
    program_simulates {sections := [countSection]} countSection
    countText c hc 0 0 hb seven zero 11 g (count_fine 11) hg
  exact ⟨c, s, m, s', hc, hs, hm, hs', htrace ▸ hasked⟩

theorem count_asks : ∃ c s, Translation {sections := [countSection]} countSection countText c ∧
    (Module.made countText countSection seven c.s).enter 0 (.idle zero) = some s ∧
    ∀ m s', steps (Module.made countText countSection seven c.s).step m s = some s' →
      ∃ n g, steps (Thread.step seven.kernel countText) n (.entering zero 0) = some g ∧
        s'.trace <:+ g.trace := by
  obtain ⟨c, hc, hb⟩ := count_translation
  obtain ⟨s, hs, hasks⟩ := program_asks {sections := [countSection]} countSection
    countText c hc 0 0 hb
    seven zero count_fine
  exact ⟨c, s, hc, hs, hasks⟩

end RiscvSbt.Whole
