import RiscvSbt.Context.Tables
import RiscvSbt.Context.Words

/-! Where indirect jumps go.

A jump through a register becomes an `indirectbr`, and `finish` gives it the blocks of the
labels of its function. Those are the entries of the function's jump tables, unless the bare
address of the label has been reached in another function before. The address of a function, that
a tail call through a pointer jumps to, is never among them. -/
namespace RiscvSbt.Context
open Library Block State

/-- A relocated address that a register can hold: the word of a jump table for a label, or a
function. -/
inductive Pointer where
  | entry (k : Nat) (w : String × Nat)
  | function (f : FnId)
  deriving DecidableEq, Repr

/-- What a register holds. -/
inductive Value where
  | block (b : Nat)
  | function (f : FnId)
  | data
  deriving DecidableEq, Repr

/-- A word of data that is loaded. -/
def valueOf : Option Constant → Value
  | some (.blockAddress b) => .block b
  | _ => .data

/-- The value in the translated program. -/
def Pointer.value (t : Block.State) : Pointer → Value
  | entry _ w => valueOf (t.sections w.1)[w.2 / 4]?
  | function f => .function f

/-- How control goes on. -/
inductive Control where
  | goto (b : Nat)
  /-- The function is called, and then the caller returns. -/
  | tailCall (f : FnId)
  | undefined
  deriving DecidableEq, Repr

/-- An `indirectbr`: to go anywhere but to one of the destinations is undefined. -/
def indirectBr (dests : List Nat) : Value → Control
  | .block b => if b ∈ dests then .goto b else .undefined
  | .function _ => .undefined
  | .data => .undefined

/-- The values of a jump register that are relocated: the word of a jump table that waits for a
label of the function, or the address of a function. -/
inductive Relocated (pending : Map Nat PendingReloc) (l : Loop) : Pointer → Prop
  | entry {k : Nat} {prel : PendingReloc} {w : String × Nat} (label : Past l.st l.addr k)
      (aligned : w.2 % 4 = 0) (waits : pending.get? k = some prel) (word : w ∈ prel.secs)
      (only : ∀ k' prel', pending.get? k' = some prel' → w ∈ prel'.secs → k' = k) :
      Relocated pending l (.entry k w)
  | function (f : FnId) : Relocated pending l (.function f)

/-- Control goes where the guest's jump goes: to a block that opens with the instruction at the
label in the section, or to the function and then back to the caller. -/
inductive Arrives (t : Block.State) (ws : List Word) (sec : Nat) : Pointer → Control → Prop
  | entry {w : String × Nat} {x : Word} {b : Nat} (word : x ∈ ws) (sec_of : x.sec = sec)
      (opens : Opens t b x) : Arrives t ws sec (.entry x.addr w) (.goto b)
  | function (f : FnId) : Arrives t ws sec (.function f) (.tailCall f)

/-- In the block `b`, the code of the instruction at `a` ends with the indirect branch `j`. -/
def JumpsBy (t : Block.State) (b a j : Nat) : Prop :=
  ∃ q i m r, (t.bbs b).insts = q ++ i :: m ++ r ∧ t.marks i.id = some a ∧
    (∀ x ∈ m, t.marks x.id = none) ∧ (i :: m).getLast? = some ⟨j, .indBr⟩

variable {p : Program} {s : State} {l : Loop} {body : Nat → Inst}
  {s₀ : Block.State} {f : FnId} {pr a k b n : Nat} {c c₂ c' : Config} {obj : Obj}
  {looks : Config → Nat → Nat → Prop} {pending : Map Nat PendingReloc}
  {sections : String → List Constant} {before : List Word} {x : String × Nat}

/-- An indirect branch of a function in progress has no destinations yet. -/
theorem Running.undecided {d : Nat → List Nat} (h : Running p s l body s₀ f pr)
    (hs : Linked s₀ d) {j : Nat} (hj : j ∈ s.blk.func.indBrs) : d j = [] := by
  obtain ⟨-, hnext, -⟩ := start_kept s₀ f l.st pr
  exact hs.later j (le_trans hnext (h.own.noted j hj).1)

/-- **The indirect branch of a jump.** -/
theorem Running.jumps {t : Block.State} {e : Nat → List Nat} (h : Running p s l body s₀ f pr)
    (hk : Kept (s.finish p).blk (s.finish p).dests t e)
    (hs : ∀ j ∈ s.blk.func.indBrs, s.dests j = [])
    (h₁ : l.st ≤ a) (h₂ : a < l.addr) (h₃ : a % 4 = 0) (hact : (body a).act = .ijump) :
    ∃ k b j, s.blk.findBB k = some b ∧ JumpsBy t b a j ∧ e j = s.blk.func.indBBs := by
  obtain ⟨main, key, hinv, -⟩ := h.inv
  obtain ⟨k, b, c, hb, hcode, hle, hlt, hmod⟩ := hinv.code_at h₁ h₂ h₃
  obtain ⟨q, i, m, ⟨j, kind⟩, hins, hi, hm, hj, ht⟩ :=
    hcode.ends_at hle hlt hmod (by rw [hact]; rfl)
  obtain rfl : kind = .indBr := ht.indirect hact
  obtain ⟨hn, hbn, -⟩ := h.own.tracked k b hb
  have hids := hinv.heap.ids b hn hbn
  have hmem : ∀ x ∈ i :: m, x ∈ (s.blk.bbs b).insts := fun x hx => by
    rw [hins]
    exact List.mem_append_right _ hx
  have hjm := hmem _ (List.mem_of_getLast? hj)
  have hnoted := h.own.indirect b hn hbn _ hjm rfl
  obtain ⟨r, hr, -⟩ := hk.later_insts hbn
  refine ⟨k, b, j, hb, ⟨q, i, m, r, ?_, ?_, fun x hx => ?_, hj⟩, ?_⟩
  · rw [hr, hins]
  · rw [hk.later_marks (hids i (hmem i List.mem_cons_self))]
    exact hi
  · rw [hk.later_marks (hids x (hmem x (List.mem_cons_of_mem _ hx)))]
    exact hm x hx
  · rw [hk.dests j (lt_of_lt_of_le (hids _ hjm) (finish_nextInstr p s)), finish_dests,
      if_pos hnoted, hs j hnoted, List.nil_append]

/-! ### After the end of the function -/

/-- A function has ended, and the translation has gone on without a new image. -/
structure Ending (p : Program) (looks : Config → Nat → Nat → Prop) (c c₂ c' : Config) (l : Loop) :
    Prop where
  loop : c.loop = some l
  ends : Cuts c.s l ∨ l.stop ≤ l.addr
  apart : Apart p c
  step : c.step p = .ok c₂
  later : Within p (Apart p) looks c₂ c'

namespace Ending
variable (h : Ending p looks c c₂ c' l) (hp : p.Aligned) (hf : Fresh p c)
include h hp hf

theorem kept : Kept (c.s.finish p).blk (c.s.finish p).dests c'.s.blk c'.s.dests := by
  obtain ⟨hstep, hf₂⟩ := hf.step hp (hf.clean h.apart) h.step
  exact (h.later.moves.between hp (fun _ hf hg => hf.clean hg) (kept_keeps p _ _) hf₂
    (hstep.ended h.loop h.ends (.refl _ _))).2.kept

theorem words : c.s.words <+: c'.s.words := by
  have hall : Within p (Apart p) looks c c' := .trans (.step .start h.apart h.step) h.later
  exact (hall.words hp (fun _ hg => hg) hf).2

/-- A word of data that waits no more stays. -/
theorem slot (htold : Told c.s.blk c.s.words) (hmod : x.2 % 4 = 0)
    (hno : ∀ k prel, c.s.blk.pending.get? k = some prel → x ∉ prel.secs) :
    (c'.s.blk.sections x.1)[x.2 / 4]? = (c.s.blk.sections x.1)[x.2 / 4]? := by
  obtain ⟨hstep, hf₂⟩ := hf.step hp (hf.clean h.apart) h.step
  have htold₂ := htold.step hf h.step hstep
  have hgood : ∀ c, Apart p c → Apart p c := fun _ hg => hg
  obtain ⟨m, hm, -⟩ := returned_appends p c.s
  have hsup := h.later.supplied hp hgood ⟨hf₂, htold₂⟩ (.restart hstep h.loop h.ends)
  obtain ⟨-, htold'⟩ := h.later.moves.told hp hgood ⟨hf₂, htold₂⟩
  have hpend : (c.s.finish p).blk.pending = c.s.blk.pending := by
    rw [finish_blk]
    exact hm.pending
  have hsec : (c.s.finish p).blk.sections = c.s.blk.sections := by
    rw [finish_blk]
    exact hm.sections
  rw [hpend, hsec] at hsup
  exact (hsup.slot (k := 0) htold' hmod fun k' prel hk hx => absurd hx (hno k' prel hk)).2
    fun ⟨_, prel, hprel, hx⟩ => hno 0 prel hprel hx

end Ending

/-- **A word of a jump table** leads to its label just if the label was not reached before. -/
theorem Going.arrives (h : Going p n pending sections c.s l body s₀ f pr before)
    (hend : Ending p looks c c₂ c' l) (hp : p.Aligned) (hf : Fresh p c)
    (htold : Told c.s.blk c.s.words)
    (hpatched : Patched pending sections (Reached (c.s.since n))
      (Opening c.s.blk (c.s.since n)) c.s.blk)
    (hobj : c.s.objs c.s.cur = some obj) (hpast : Past l.st l.addr k) (hmod : x.2 % 4 = 0)
    {prel : PendingReloc} (hprel : pending.get? k = some prel) (hx : x ∈ prel.secs)
    (hone : ∀ k' prel', pending.get? k' = some prel' → x ∈ prel'.secs → k' = k) :
    Arrives c'.s.blk c'.s.words obj.sec (.entry k x)
      (indirectBr c.s.blk.func.indBBs ((Pointer.entry k x).value c'.s.blk)) ↔
      ¬ Reached before k := by
  obtain ⟨new, hsince, hnew, hown⟩ := h.own
  have hreached : Reached (c.s.since n) k := by
    rw [hsince, reached_append]
    exact .inr ((hnew k).mpr hpast)
  have hslot := hend.slot hp hf htold hmod fun k' prel' hk' hx' => by
    obtain ⟨hno, hk'⟩ := hpatched.waiting hk'
    obtain rfl := hone k' prel' hk' hx'
    exact hno hreached
  constructor
  · intro harr hk
    obtain ⟨b, hb, hword⟩ := h.earlier hk hprel hx hone
    have hvalue : (Pointer.entry k x).value c'.s.blk = .block b := by
      show valueOf (c'.s.blk.sections x.1)[x.2 / 4]? = _
      rw [hslot, hword]
      rfl
    rw [hvalue, show indirectBr c.s.blk.func.indBBs (.block b) = .undefined from if_neg hb] at harr
    cases harr
  · intro hno
    obtain ⟨b, hb, haddr, hword⟩ := h.label hno hpast hprel hx hone
    have hvalue : (Pointer.entry k x).value c'.s.blk = .block b := by
      show valueOf (c'.s.blk.sections x.1)[x.2 / 4]? = _
      rw [hslot, hword]
      rfl
    rw [hvalue, show indirectBr c.s.blk.func.indBBs (.block b) = .goto b from if_pos hb]
    have hopening := ((h.opening htold hb haddr hno).finish p).kept (hend.kept hp hf)
    obtain ⟨w, hw, hopens⟩ := hopening.opens
    obtain rfl : w.addr = k := by simpa using List.find?_some hw
    have hmem : w ∈ new := by
      rw [hsince, List.find?_append, find_of_not_reached hno, Option.none_or] at hw
      exact List.mem_of_find?_eq_some hw
    have hold : w ∈ c.s.words := List.mem_of_mem_drop (show w ∈ c.s.since n from
      hsince ▸ List.mem_append_right before hmem)
    exact .entry ((hend.words hp hf).subset hold) ((hown w hmem).2 obj hobj) hopens

/-- **When indirect jumps arrive.** The image of a file has been built, and its sections are
translated, where every function that is cut keeps its branches and jumps to itself. Once a
function has ended, the code of a jump through a register ends with an indirect branch. That does
what the guest does with a relocated address just if this is an entry of a jump table of the
function, and no instruction with the bare address of the label was translated between the image
and the function. -/
theorem jumps_arrive (p : Program) (pending : Map Nat PendingReloc)
    (sections : String → List Constant) (looks : Config → Nat → Nat → Prop) (hp : p.Aligned)
    (cᵢ c₀ c₁ c c₂ c' : Config)
    (himage : Moves p (Apart p) looks (Config.init pending sections) cᵢ) (hidle : cᵢ.loop = none)
    (h : Within p (Apart p) looks cᵢ c₀) (hgood : Apart p c₀) (hs : c₀.step p = .ok c₁) (l₀ : Loop)
    (hl₀ : c₁.loop = some l₀) (hfirst : l₀.addr = l₀.st) (hrun : Within p Turning looks c₁ c)
    (l : Loop) (hend : Ending p looks c c₂ c' l) (obj : Obj) (hobj : c.s.objs c.s.cur = some obj)
    (a : Nat) (h₁ : l.st ≤ a) (h₂ : a < l.addr) (h₃ : a % 4 = 0)
    (hact : (p.body obj.sec a).act = .ijump) :
    ∃ k b j, c.s.blk.findBB k = some b ∧ JumpsBy c'.s.blk b a j ∧
      ∀ v, Relocated cᵢ.s.blk.pending l v →
        (Arrives c'.s.blk c'.s.words obj.sec v (indirectBr (c'.s.dests j) (v.value c'.s.blk)) ↔
          ∃ k w, v = .entry k w ∧ ∀ x ∈ c₁.s.since cᵢ.s.words.length, x.addr ≠ k) := by
  have hsame : ∀ c, Apart p c → Apart p c := fun _ hg => hg
  have hturn : ∀ c, Turning c → Apart p c := fun _ => Turning.apart
  have hstart := himage.told hp hsame ⟨.init pending sections, .init pending sections⟩
  -- The function is entered.
  have hentry : Within p (Apart p) looks cᵢ c₁ := .step h hgood hs
  obtain ⟨hf₁, htold₁⟩ := hentry.moves.told hp hsame hstart
  have hsup₁ := hentry.supplied hp hsame hstart (.start hidle)
  obtain ⟨body, s₀, f, pr, before, hgoing₁⟩ := hsup₁.run l₀ hl₀
  obtain rfl := hgoing₁.entered hfirst
  -- Its instructions are translated.
  obtain ⟨l', hl', hst, hgoing⟩ := hrun.going hp hf₁ hsup₁.le hl₀ hgoing₁
  obtain rfl := Option.some.inj (hl'.symm.trans hend.loop)
  obtain ⟨hf, htold⟩ := hrun.moves.told hp hturn ⟨hf₁, htold₁⟩
  have hpatched := (hrun.supplied hp hturn ⟨hf₁, htold₁⟩ hsup₁).patched htold
  have hr := hgoing.running
  obtain ⟨rfl, -⟩ := hr.obj obj hobj
  have hlinked : ∀ j ∈ c.s.blk.func.indBrs, c.s.dests j = [] := fun j hj => by
    obtain ⟨hfresh, hbetween, -⟩ := Config.init_vacated p pending sections
    obtain ⟨hf₁', hbetween₁⟩ := (himage.trans hentry.moves).between hp
      (fun _ hf hg => hf.clean hg) (linked_keeps p) hfresh hbetween
    obtain ⟨-, hbetween'⟩ := hrun.moves.between hp (fun _ hf hg => hf.clean (hturn _ hg))
      (linked_keeps p) hf₁' hbetween₁
    obtain ⟨body', s₀', f', pr', hr', hs'⟩ := hbetween'.2 _ hend.loop
    exact hr'.undecided hs' hj
  obtain ⟨k, b, j, hb, hjumps, hdests⟩ := hr.jumps (hend.kept hp hf) hlinked h₁ h₂ h₃ hact
  refine ⟨k, b, j, hb, hjumps, fun v hv => ?_⟩
  rw [hdests]
  cases hv with
  | function f =>
    refine iff_of_false ?_ fun ⟨_, _, heq, _⟩ => (by cases heq)
    rintro ⟨⟩
  | @entry k prel w label aligned waits word only =>
    rw [hgoing.arrives hend hp hf htold hpatched hobj label aligned waits word only]
    refine ⟨fun hno => ⟨k, w, rfl, fun x hx hk => hno ⟨x, hx, hk⟩⟩, ?_⟩
    rintro ⟨k, w, ⟨⟩, hno⟩ ⟨x, hx, hk⟩
    exact hno x hx hk

/-- The table of the words of `switchSlots`. -/
def switchPending : Map Nat PendingReloc := (addSlots Map.empty switchSlots).toOption.getD Map.empty

theorem switch_arrives : ∃ c c' : Config, c.loop = some ⟨0, 16, 16⟩ ∧
    c.step switchProgram = .ok c' ∧ ∃ k b j, c.s.blk.findBB k = some b ∧ JumpsBy c'.s.blk b 4 j ∧
      Arrives c'.s.blk c'.s.words 0 (.entry 8 (".data", 4))
        (indirectBr (c'.s.dests j) ((Pointer.entry 8 (".data", 4)).value c'.s.blk)) := by
  have haligned : switchProgram.Aligned := fun sec hsec sym hsym _ => by
    obtain rfl := List.mem_singleton.mp hsec
    obtain rfl := List.mem_singleton.mp hsym
    rfl
  let start := Config.init switchPending switchSections
  have hfirst : ∃ c₀ c₁, iterate (Config.step switchProgram) 1 start = .ok c₀ ∧
      c₀.cutting = false ∧ c₀.step switchProgram = .ok c₁ ∧ c₁.loop = some ⟨0, 16, 0⟩ ∧
      c₁.s.words = [] := ⟨_, _, rfl, rfl, rfl, rfl, rfl⟩
  obtain ⟨c₀, c₁, hc₀, hcut, hs, hl₁, hnone⟩ := hfirst
  have hc₁ : iterate (Config.step switchProgram) 2 start = .ok c₁ := by
    rw [iterate_succ, hc₀]
    exact hs
  obtain ⟨c, hc, hP⟩ := checks_spec (P := fun c => c.loop = some ⟨0, 16, 16⟩ ∧
      c.cutting = false ∧ (c.s.objs c.s.cur).map Obj.sec = some 0 ∧
      (c.step switchProgram).toOption.map Config.loop = some none)
    (show start.checks switchProgram 6 _ = true by decide +kernel)
  obtain ⟨hl, hcut', hobj, hstep⟩ := of_decide_eq_true hP
  obtain ⟨obj, hobj, hsec⟩ := Option.map_eq_some_iff.mp hobj
  obtain ⟨c', hc', -⟩ := Option.map_eq_some_iff.mp hstep
  have hc' : c.step switchProgram = .ok c' := by
    cases hx : c.step switchProgram with
    | error e =>
      rw [hx] at hc'
      cases hc'
    | ok d =>
      rw [hx] at hc'
      rw [Option.some.inj hc']
  have hreach : Run (Config.step switchProgram) (Apart switchProgram) start c₀ :=
    (reach_uncut (p := switchProgram) (by decide +kernel) hc₀).mono fun _ hc => (uncut hc).1
  have hturns : Turns switchProgram c₁ c := turns_of hc₁ (by decide) (by decide +kernel) hc
  obtain ⟨k, b, j, hb, hjumps, harrives⟩ := jumps_arrive switchProgram switchPending switchSections
    (fun _ _ _ => False) haligned start c₀ c₁ c c' c' .start rfl (.of_run hreach) (uncut hcut).1 hs
    _ hl₁ rfl (.of_run hturns) ⟨0, 16, 16⟩ ⟨hl, .inr (le_refl _), (uncut hcut').1, hc', .start⟩ obj
    hobj 4 (by decide) (by decide) rfl (by rw [hsec]; rfl)
  have hall : ∀ q ∈ switchPending.data, (".data", 4) ∈ q.2.secs → q.1 = 8 := by decide
  have hget : switchPending.get? 8 = some ⟨"L8", [(".rodata", 0), (".data", 4)]⟩ := rfl
  have hentry : Relocated switchPending ⟨0, 16, 16⟩ (.entry 8 (".data", 4)) :=
    .entry (by decide) rfl hget (by decide) fun k' prel' hk hw =>
      hall _ (Map.get?_eq_some.mp hk) hw
  refine ⟨c, c', hl, hc', k, b, j, hb, hjumps, ?_⟩
  rw [← hsec]
  refine (harrives _ hentry).mpr ⟨8, (".data", 4), rfl, fun x hx => ?_⟩
  have hx : x ∈ c₁.s.words := List.mem_of_mem_drop hx
  rw [hnone] at hx
  cases hx

/-- A tail call through a pointer, and a function that the pointer can be to. -/
def pointerProgram : Program where
  sections := [{
    size := 12
    symbols := [{name := "a", addr := 0}, {name := "b", addr := 8}]
    inst := fun a =>
      if a = 0 then .straight 1
      else if a = 4 then .ijump 1
      else .ret 0 }]

/-- The jump does not call the function, whose address is no destination. -/
theorem pointer_undefined : ∃ c : Config,
    Config.Reach pointerProgram (fun _ => True) Map.empty (fun _ => []) c ∧ c.loop = none ∧
      c.todo = [] ∧ c.next = 1 ∧ (pointerProgram.body 0 4).act = .ijump ∧
      c.s.module.get? "b" = some 1 ∧ JumpsBy c.s.blk 0 4 2 ∧
      ¬ Arrives c.s.blk c.s.words 0 (.function 1)
        (indirectBr (c.s.dests 2) ((Pointer.function 1).value c.s.blk)) := by
  obtain ⟨c, hc, hP⟩ := checks_spec (P := fun c => c.loop = none ∧ c.todo = [] ∧ c.next = 1 ∧
      c.s.module.get? "b" = some 1 ∧
      (c.s.blk.bbs 0).insts = [⟨0, .op⟩, ⟨1, .op⟩, ⟨2, .indBr⟩] ∧ c.s.blk.marks 1 = some 4 ∧
      c.s.blk.marks 2 = none)
    (show (Config.init Map.empty fun _ => []).checks pointerProgram 8 _ = true by decide +kernel)
  obtain ⟨hl, htodo, hnext, hb, hins, h₁, h₂⟩ := of_decide_eq_true hP
  refine ⟨c, Run.start.iterate 8 (fun _ _ _ _ => trivial) hc, hl, htodo, hnext, rfl, hb,
    ⟨[⟨0, .op⟩], ⟨1, .op⟩, [⟨2, .indBr⟩], [], hins, h₁, fun x hx => ?_, rfl⟩, fun h => ?_⟩
  · rw [List.mem_singleton.mp hx]
    exact h₂
  · cases h

end RiscvSbt.Context
