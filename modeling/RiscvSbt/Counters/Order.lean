import Mathlib.Data.List.Induction
import RiscvSbt.Counters.Machine
import RiscvSbt.Library.Run

/-! Counters are initialised where the first of them is translated.

The code of a counter calls `counters_init` if no counter was translated before it, and
nothing else calls it. So a path is good just if it comes to the instruction that was
translated first no later than to a read of a clock. -/
namespace RiscvSbt.Counters
open Library

def Item.callee? : Item → Option Callee
  | .call c => some c
  | _ => none

/-- The functions that some code calls, in order. -/
def calls (items : List Item) : List Callee := items.filterMap Item.callee?

/-- `counters_init` is called before any other function. -/
def Initialised (cs : List Callee) : Prop :=
  ∀ pre c post, cs = pre ++ c :: post → c ≠ .counters_init → .counters_init ∈ pre

/-- The function that an instruction reads a clock with. -/
def Inst.getter : Inst → Option Callee
  | .csr i => i.csr.getter
  | .other => none

def Inst.isCounter : Inst → Bool
  | .csr i => i.csr.isCounter
  | .other => false

/-- The instruction of a counter that is translated first. -/
def firstCounter (insts : List Inst) : Option Nat := insts.findIdx? Inst.isCounter

/-- Up to a read of a clock, a path comes to the instruction that is translated first. -/
def FirstRuns (insts : List Inst) (path : List Nat) : Prop :=
  ∀ pre i post, path = pre ++ i :: post → (insts[i]? >>= Inst.getter).isSome = true →
    ∃ d, firstCounter insts = some d ∧ d ∈ pre ++ [i]

variable {enFCSR init init' : Bool} {i : CsrInst} {insts : List Inst} {cs ds : List Callee}
  {items : List Item} {code : List (List Item)} {path : List Nat} {cpu : Cpu} {s t : State}

/-! ### Lists of calls -/

theorem calls_append (a b : List Item) : calls (a ++ b) = calls a ++ calls b :=
  List.filterMap_append

theorem calls_trace (code : List (List Item)) (path : List Nat) :
    calls (trace code path) = path.flatMap fun i => calls (code.getD i []) :=
  List.filterMap_flatMap

namespace Initialised

theorem nil : Initialised [] := fun pre c post h => by simp at h

theorem append : Initialised (cs ++ ds) ↔
    Initialised cs ∧ (.counters_init ∈ cs ∨ Initialised ds) := by
  constructor
  · intro h
    refine ⟨fun pre c post hcs hc => h pre c (post ++ ds) (by simp [hcs]) hc, ?_⟩
    by_cases hin : .counters_init ∈ cs
    · exact .inl hin
    · refine .inr fun pre c post hds hc => ?_
      have := h (cs ++ pre) c post (by simp [hds]) hc
      exact (List.mem_append.mp this).resolve_left hin
  · rintro ⟨hcs, hds⟩ pre c post heq hc
    rcases List.append_eq_append_iff.mp heq with ⟨mid, rfl, hmid⟩ | ⟨mid, hmid, htail⟩
    · rcases hds with hin | hds
      · exact List.mem_append_left _ hin
      · exact List.mem_append_right _ (hds mid c post hmid hc)
    · cases mid with
      | nil =>
        rw [List.append_nil] at hmid
        rcases hds with hin | hds
        · exact hmid ▸ hin
        · exact absurd (hds [] c post (by simpa using htail.symm) hc) (by simp)
      | cons c' mid =>
        obtain ⟨rfl, -⟩ := List.cons.inj htail
        exact hcs pre c mid hmid hc

theorem cons_init : Initialised (.counters_init :: cs) := by
  intro pre c post heq hc
  cases pre with
  | nil => exact absurd (List.cons.inj heq).1.symm hc
  | cons c' pre =>
    obtain ⟨rfl, -⟩ := List.cons.inj heq
    exact List.mem_cons_self

theorem cons_ne {c : Callee} (hc : c ≠ .counters_init) : ¬ Initialised (c :: cs) := fun h => by
  have := h [] c cs rfl hc
  cases this

end Initialised

/-! ### What is translated to calls -/

theorem getCSRValue_calls {csr : CSR} {v : Value} (h : getCSRValue enFCSR csr = .ok (items, v)) :
    calls items = csr.getter.toList := by
  cases csr <;> cases h <;> rfl

theorem setCSRValue_calls {csr : CSR} {v : Value} (h : setCSRValue enFCSR v csr = .ok items) :
    calls items = [] := by
  cases csr <;> cases h
  cases enFCSR <;> rfl

theorem writeCSR_calls {v : Value} (h : writeCSR enFCSR i v = .ok items) : calls items = [] := by
  unfold writeCSR at h
  split at h
  · exact setCSRValue_calls h
  all_goals
    split at h
    · cases h
      rfl
    · exact setCSRValue_calls h

theorem initCounters_calls : calls (initCounters init) = if init then [.counters_init] else [] := by
  cases init <;> rfl

theorem translateCSR_calls (h : translateCSR enFCSR init i = .ok (items, init')) :
    calls items = (if init && i.csr.isCounter then [.counters_init] else []) ++
      i.csr.getter.toList ∧ init' = (init && !i.csr.isCounter) := by
  obtain ⟨⟨read, v⟩, hread, h⟩ := bind_ok h
  obtain ⟨write, hwrite, h⟩ := bind_ok h
  obtain ⟨rfl, rfl⟩ := Prod.mk.inj (Except.ok.inj h)
  refine ⟨?_, rfl⟩
  simp only [calls_append, initCounters_calls, getCSRValue_calls hread, writeCSR_calls hwrite,
    List.append_nil]
  exact List.append_nil _

theorem firstCounter_zero {inst : Inst} :
    firstCounter (inst :: insts) = some 0 ↔ inst.isCounter = true := by
  cases h : inst.isCounter <;> simp [firstCounter, List.findIdx?_cons, h]

theorem firstCounter_succ {inst : Inst} {i : Nat} :
    firstCounter (inst :: insts) = some (i + 1) ↔
      inst.isCounter = false ∧ firstCounter insts = some i := by
  cases h : inst.isCounter <;> simp [firstCounter, List.findIdx?_cons, h]

/-- The calls of the code of an instruction, known by its place in the order of translation. -/
theorem translate_calls (h : translate enFCSR init insts = .ok code) (i : Nat) :
    calls (code.getD i []) =
      (if init = true ∧ firstCounter insts = some i then [.counters_init] else []) ++
        (insts[i]? >>= Inst.getter).toList := by
  induction insts generalizing init code i with
  | nil =>
    obtain rfl := Except.ok.inj h
    simp [firstCounter, calls]
  | cons inst insts ih =>
    cases inst with
    | other =>
      obtain ⟨rest, hrest, h⟩ := bind_ok h
      obtain rfl := Except.ok.inj h
      cases i with
      | zero => simp [firstCounter_zero, Inst.isCounter, Inst.getter, calls]
      | succ i => simpa [firstCounter_succ, Inst.isCounter] using ih hrest i
    | csr c =>
      obtain ⟨⟨items, init'⟩, hitems, h⟩ := bind_ok h
      obtain ⟨rest, hrest, h⟩ := bind_ok h
      obtain rfl := Except.ok.inj h
      obtain ⟨hcalls, rfl⟩ := translateCSR_calls hitems
      cases i with
      | zero => simp [firstCounter_zero, Inst.isCounter, Inst.getter, hcalls]
      | succ i =>
        have hrest := ih hrest i
        simpa [firstCounter_succ, Inst.isCounter, and_assoc] using hrest

/-! ### Paths -/

theorem FirstRuns.append (i : Nat) : FirstRuns insts (path ++ [i]) ↔
    FirstRuns insts path ∧ ((insts[i]? >>= Inst.getter).isSome = true →
      ∃ d, firstCounter insts = some d ∧ d ∈ path ++ [i]) := by
  constructor
  · intro h
    refine ⟨fun pre j post hpath hj => ?_, fun hi => h path i [] rfl hi⟩
    exact h pre j (post ++ [i]) (by simp [hpath]) hj
  · rintro ⟨hpath, hi⟩ pre j post heq hj
    rcases List.eq_nil_or_concat post with rfl | ⟨post, k, rfl⟩
    · obtain ⟨rfl, hij⟩ := List.append_inj' heq rfl
      obtain rfl := (List.cons.inj hij).1
      exact hi hj
    · have heq' : path ++ [i] = (pre ++ j :: post) ++ [k] := by simpa using heq
      exact hpath pre j post (List.append_inj' heq' rfl).1 hj

theorem getter_ne (inst : Option Inst) : (inst >>= Inst.getter) ≠ some .counters_init := by
  intro h
  cases inst with
  | none => cases h
  | some inst =>
    cases inst with
    | other => cases h
    | csr i => cases hc : i.csr <;> simp [Inst.getter, hc, CSR.getter] at h

theorem init_mem_calls (h : translate enFCSR true insts = .ok code) (path : List Nat) :
    .counters_init ∈ calls (trace code path) ↔ ∃ d, firstCounter insts = some d ∧ d ∈ path := by
  rw [calls_trace, List.mem_flatMap]
  constructor
  · rintro ⟨i, hi, hin⟩
    rw [translate_calls h, List.mem_append] at hin
    rcases hin with hin | hin
    · split at hin
      next hfirst => exact ⟨i, hfirst.2, hi⟩
      next => cases hin
    · exact absurd (Option.mem_toList.mp hin) (getter_ne _)
  · rintro ⟨d, hd, hin⟩
    refine ⟨d, hin, ?_⟩
    rw [translate_calls h, if_pos ⟨rfl, hd⟩]
    exact List.mem_cons_self

/-- A path calls `counters_init` in time just if it comes to the first counter in time. -/
theorem initialised_iff (h : translate enFCSR true insts = .ok code) (path : List Nat) :
    Initialised (calls (trace code path)) ↔ FirstRuns insts path := by
  induction path using List.reverseRecOn with
  | nil => exact iff_of_true .nil fun pre i post heq => by simp at heq
  | append_singleton path i ih =>
    have htrace : trace code (path ++ [i]) = trace code path ++ code.getD i [] := by
      simp [trace]
    rw [htrace, calls_append, Initialised.append, ih, FirstRuns.append, init_mem_calls h,
      translate_calls h]
    refine and_congr_right fun _ => ?_
    cases hg : insts[i]? >>= Inst.getter with
    | none =>
      refine iff_of_true (.inr ?_) fun hs => by cases hs
      rw [Option.toList_none, List.append_nil]
      split
      · exact .cons_init
      · exact .nil
    | some c =>
      have hc : c ≠ .counters_init := fun hc => getter_ne _ (hc ▸ hg)
      rw [Option.toList_some]
      by_cases hfirst : firstCounter insts = some i
      · rw [if_pos ⟨rfl, hfirst⟩]
        exact iff_of_true (.inr .cons_init) fun _ => ⟨i, hfirst, by simp⟩
      · rw [if_neg fun h => hfirst h.2]
        constructor
        · rintro (⟨d, hd, hin⟩ | hinit) -
          · exact ⟨d, hd, List.mem_append_left _ hin⟩
          · exact absurd hinit (Initialised.cons_ne hc)
        · intro hin
          obtain ⟨d, hd, hin⟩ := hin rfl
          rcases List.mem_append.mp hin with hin | hin
          · exact .inl ⟨d, hd, hin⟩
          · exact absurd (List.mem_singleton.mp hin ▸ hd) hfirst

/-! ### Division -/

/-- A clock is read with a frequency. -/
theorem run_ok (hcpu : ∀ freq, cpu.freq = some freq → freq ≠ 0)
    (h : s.freq ≠ 0 ∨ Initialised (calls items)) : cpu.run s items ≠ .error .divideError := by
  induction items generalizing s with
  | nil => exact nofun
  | cons i items ih =>
    show cpu.exec s i >>= (cpu.run · items) ≠ _
    cases i with
    | call c =>
      by_cases hc : c = .counters_init
      · subst hc
        show cpu.call s .counters_init >>= _ ≠ _
        unfold Cpu.call
        cases hfreq : cpu.freq with
        | none => exact nofun
        | some freq => exact ih (.inl (hcpu freq hfreq))
      · -- Only `counters_init` changes the frequency.
        have hs : s.freq ≠ 0 := h.resolve_right (Initialised.cons_ne hc)
        cases c with
        | counters_init => exact absurd rfl hc
        | get_cycles => exact ih (.inl hs)
        | get_time =>
          show cpu.call s .get_time >>= _ ≠ _
          rw [Cpu.call, if_neg hs]
          exact ih (.inl hs)
        | get_instret => exact ih (.inl hs)
    | setFCSR v => exact ih h
    | store v rd => exact ih h

/-- **When counters are initialised before use**: on every path, and with that no clock is
divided by zero, just if every path comes to the counter that is translated first no later
than to a read of a clock. -/
theorem counters_initialised {σ : Type} (G : Guest σ) (cpu : Cpu)
    (hcpu : ∀ freq, cpu.freq = some freq → freq ≠ 0) (s : State) (enFCSR : Bool)
    (insts : List Inst) (code : List (List Item)) (h : translate enFCSR true insts = .ok code) :
    (∀ path p, G.Path path p → Initialised (calls (trace code path)) ∧
        cpu.run s (trace code path) ≠ .error .divideError) ↔
      ∀ path p, G.Path path p → FirstRuns insts path := by
  refine forall_congr' fun path => forall_congr' fun p => imp_congr_right fun _ => ?_
  rw [initialised_iff h, and_iff_left_of_imp fun hfirst => ?_]
  exact run_ok hcpu (.inr ((initialised_iff h path).mpr hfirst))

/-- Execution that starts at an instruction and goes through all behind it. -/
def straight (start : Nat) : Guest Nat where
  start p := p = start
  site p := p
  next p p' := p' = p + 1

/-- A clock is read in a function, and in `main` behind it. -/
def twoClocks : List Inst :=
  [.csr ⟨.RS, .RDTIME, .reg 0, 10⟩, .other, .csr ⟨.RS, .RDTIME, .reg 0, 5⟩]

def processor : Cpu where
  brand := some (3, 40, 'G')
  rdtsc _ := 1000000
  rdpmc _ := 0

/-- Where `main` runs first, its clock has no frequency. -/
theorem main_divides_by_zero : ∃ code, translate false true twoClocks = .ok code ∧
    (straight 2).Path [2] 3 ∧ ¬ Initialised (calls (trace code [2])) ∧
    processor.run {regs := fun _ => 0} (trace code [2]) = .error .divideError :=
  ⟨_, rfl, .step (.start rfl) rfl, Initialised.cons_ne (by decide), rfl⟩

theorem straight_path {start : Nat} {path : List Nat} {p : Nat} (h : (straight start).Path path p) :
    path = List.range' start path.length ∧ p = start + path.length := by
  induction h with
  | start hs => exact ⟨rfl, hs⟩
  | step _ hnext ih =>
    obtain ⟨hpath, rfl⟩ := ih
    refine ⟨?_, ?_⟩
    · rw [List.length_append, List.length_singleton, List.range'_concat, ← hpath]
      simp [straight]
    · rw [show _ = _ from hnext, List.length_append, List.length_singleton, Nat.add_assoc]

theorem straight_head {pre post : List Nat} {i start p : Nat}
    (h : (straight start).Path (pre ++ i :: post) p) : start ∈ pre ++ [i] := by
  have hpath := (straight_path h).1
  cases pre with
  | nil =>
    obtain ⟨rfl, -⟩ := List.cons.inj hpath
    exact List.mem_cons_self
  | cons k pre =>
    obtain ⟨rfl, -⟩ := List.cons.inj hpath
    exact List.mem_cons_self

/-- In the order of translation all is well. -/
theorem in_order_initialised : ∃ code, translate false true twoClocks = .ok code ∧
    ∀ path p, (straight 0).Path path p → Initialised (calls (trace code path)) ∧
      processor.run {regs := fun _ => 0} (trace code path) ≠ .error .divideError := by
  refine ⟨_, rfl, (counters_initialised (straight 0) processor ?_ _ false twoClocks _ rfl).mpr ?_⟩
  · rintro freq ⟨⟩
    decide
  · rintro path p hpath pre i post rfl -
    exact ⟨0, rfl, straight_head hpath⟩

end RiscvSbt.Counters
