import RiscvSbt.Block.Partition

/-! Control flow through finished blocks.

`Leads` follows the code from a point on, for one outcome of a guest branch and for every
outcome of the tests in auxiliary code. `Done` is what the invariant leaves behind at the
end of a function, and from it every guest instruction leads to the next one. -/
namespace RiscvSbt.Block
open Library State

/-- Where the guest goes on after the instruction at `a`. -/
def Act.succ? (act : Act) (a : Nat) (taken : Bool) : Option Nat :=
  match act with
  | .next | .call _ | .icall | .cvt => some (a + 4)
  | .branch t => some (if taken then t else a + 4)
  | .jump t => some t
  | .ret | .ijump | .tail _ => none

/-- Whether the instruction may go on at the next one. -/
def Act.falls : Act → Bool
  | .next | .call _ | .icall | .cvt | .branch _ => true
  | _ => false

section Flow
variable (t : State) (a : Nat) (taken : Bool) (P : List Instr → Prop) (stop : Prop)

/-- From a list of instructions on, control passes the given marks and gets to `P`, or it
leaves the function if that is allowed. The branch at `a` is taken or not as given. -/
inductive Leads : List Instr → List Nat → Prop where
  | here {l : List Instr} (h : P l) : Leads l []
  | op {i : Instr} {l : List Instr} {tr : List Nat} (kind : i.kind = .op) (rest : Leads l tr) :
      Leads (i :: l) ((t.marks i.id).toList ++ tr)
  | br {i : Instr} {b : Nat} {tr : List Nat} (kind : i.kind = .br b)
      (rest : Leads (t.bbs b).insts tr) : Leads [i] ((t.marks i.id).toList ++ tr)
  | guest {i : Instr} {u v : Nat} (kind : i.kind = .condBr (.guest a) u v)
      (rest : Leads (t.bbs (if taken then u else v)).insts []) : Leads [i] (t.marks i.id).toList
  | helper {i : Instr} {u v : Nat} {tr : List Nat} (kind : i.kind = .condBr .helper u v)
      (yes : Leads (t.bbs u).insts tr) (no : Leads (t.bbs v).insts tr) :
      Leads [i] ((t.marks i.id).toList ++ tr)
  | stop {i : Instr} (kind : i.kind = .ret ∨ i.kind = .indBr) (h : stop) :
      Leads [i] (t.marks i.id).toList

end Flow

section Predicates
variable (opts : Options) (body : Nat → Inst) (st e : Nat) (t : State)

/-- The blocks of a finished function. -/
structure Done : Prop where
  entry : HasBB t st
  block : ∀ c b, t.findBB c = some b → c < e → (terminator (t.bbs b).insts).isSome ∧
    ∃ e', Code opts body t c (t.bbs b).insts e' ∧ c < e'
  exits : ∀ a, st ≤ a → a < e → a % 4 = 0 → (body a).act.leaves opts →
    ∃ x, Region t a x ∧ Closed t a x
  bound : ∀ a b, b ∈ t.ubbs a → b < t.nextBlock
  next : ∀ a taken c, st ≤ a → a < e → a % 4 = 0 → (body a).act.succ? a taken = some c →
    st ≤ c ∧ c < e ∧ c % 4 = 0

/-- The rest of a finished block, from the code of the instruction at `a` on. -/
def At (a : Nat) (l : List Instr) : Prop :=
  (st ≤ a ∧ a < e ∧ a % 4 = 0) ∧ (terminator l).isSome ∧ ∃ e', Code opts body t a l e'

end Predicates

variable {opts : Options} {body : Nat → Inst} {n st e : Nat} {s t : State} {a c : Nat}
  {taken : Bool} {P Q : List Instr → Prop} {stop : Prop} {l m : List Instr} {tr : List Nat}

theorem terminator_cons {i : Instr} (hi : i.kind = .op) (h : (terminator (i :: l)).isSome) :
    (terminator l).isSome := by
  cases l with
  | nil =>
    have hs : Straight [i] := fun j hj => by rw [List.mem_singleton.mp hj, hi]
    rw [hs.terminator] at h
    exact nomatch h
  | cons j l => rwa [show i :: j :: l = [i] ++ j :: l from rfl, terminator_append_cons] at h

namespace Leads

/-- Going on from where the code leads. -/
theorem trans (h : Leads t a taken P stop l tr) (hs : ¬ stop)
    (hP : ∀ m, P m → Leads t a taken Q stop m []) : Leads t a taken Q stop l tr := by
  induction h with
  | here h => exact hP _ h
  | op kind _ ih => exact .op kind ih
  | br kind _ ih => exact .br kind ih
  | guest kind _ ih => exact .guest kind ih
  | helper kind _ _ yes no => exact .helper kind yes no
  | stop kind h => exact absurd h hs

/-- Unmarked code adds nothing to what is passed. -/
theorem unmarked {i : Instr} (hm : t.marks i.id = none)
    (h : Leads t a taken P stop l ((t.marks i.id).toList ++ tr)) : Leads t a taken P stop l tr := by
  rwa [hm] at h

theorem quiet {q : List Instr} (hq : Quiet t q) (h : Leads t a taken P stop l tr) :
    Leads t a taken P stop (q ++ l) tr := by
  induction q with
  | nil => exact h
  | cons i q ih =>
    obtain ⟨hk, hm⟩ := hq i List.mem_cons_self
    exact unmarked hm (.op hk (ih fun j hj => hq j (List.mem_cons_of_mem _ hj)))

end Leads

/-- The untracked code of an instruction leads to where its last block does, whichever way it
takes. -/
theorem Region.leads {x : Nat} (hr : Region t a x) (hbound : ∀ y ∈ t.ubbs a, y < t.nextBlock)
    (hx : Leads t a taken P stop (t.bbs x).insts []) {y : Nat} (hy : y ∈ t.ubbs a) :
    Leads t a taken P stop (t.bbs y).insts [] := by
  -- The blocks of the instruction only lead to later ones.
  induction hd : t.nextBlock - y using Nat.strong_induction_on generalizing y with
  | _ d ih =>
    by_cases hyx : y = x
    · rw [hyx]
      exact hx
    · obtain ⟨q, i, heq, hq, hm, hk, hz⟩ := hr.forward y hy hyx
      have hgo : ∀ z ∈ i.kind.succs, Leads t a taken P stop (t.bbs z).insts [] := by
        intro z hz'
        obtain ⟨hub, hlt'⟩ := hz z hz'
        have := hbound z hub
        exact ih (t.nextBlock - z) (by omega) hub rfl
      rw [heq]
      refine .quiet hq (.unmarked hm ?_)
      rcases hk with ⟨z, hk⟩ | ⟨z, w, hk⟩
      · exact .br hk (hgo z (by rw [hk]; exact List.mem_singleton.mpr rfl))
      · refine .helper hk (hgo z ?_) (hgo w ?_) <;> rw [hk] <;> simp [Kind.succs]

namespace Done

/-- The untracked code of an instruction goes on at the next one. -/
theorem region (h : Done opts body st e t) (hst : st ≤ a) (hlt : a < e) (hmod : a % 4 = 0)
    (hl : (body a).act.leaves opts = true) {y : Nat} (hy : y ∈ t.ubbs a)
    (hP : ∀ b, t.findBB (a + 4) = some b → P (t.bbs b).insts) :
    Leads t a taken P stop (t.bbs y).insts [] := by
  obtain ⟨x, hr, q, i, b, heq, hq, hm, hk, hb⟩ := h.exits a hst hlt hmod hl
  refine hr.leads (h.bound a) ?_ hy
  rw [heq]
  exact .quiet hq (.unmarked hm (.br hk (.here (hP b hb))))

/-- Where an instruction leads. -/
def Next (opts : Options) (body : Nat → Inst) (st e : Nat) (t : State) (a : Nat) (taken : Bool)
    (l : List Instr) : Prop :=
  ∃ c, (body a).act.succ? a taken = some c ∧ At opts body st e t c l

section Instruction
variable (h : Done opts body st e t) (hst : st ≤ a) (hlt : a < e) (hmod : a % 4 = 0)
include h hst hlt hmod

/-- The block of a successor. -/
theorem at_block {b : Nat} (hs : (body a).act.succ? a taken = some c) (hb : t.findBB c = some b) :
    Next opts body st e t a taken (t.bbs b).insts := by
  obtain ⟨hc, hce, hcm⟩ := h.next a taken c hst hlt hmod hs
  obtain ⟨hterm, e', hcode, -⟩ := h.block c b hb hce
  exact ⟨c, hs, ⟨hc, hce, hcm⟩, hterm, e', hcode⟩

theorem term {i : Instr} (ht : Term opts body t a i.kind) :
    Leads t a taken (Next opts body st e t a taken) ((body a).act.succ? a taken = none) [i]
      (t.marks i.id).toList := by
  rw [← List.append_nil (t.marks i.id).toList]
  generalize hk : i.kind = kind at ht
  cases ht with
  | @branch tgt bt bn act target next =>
    rw [List.append_nil]
    refine .guest hk (.here ?_)
    cases taken with
    | true => exact h.at_block hst hlt hmod (by rw [act]; rfl) target
    | false => exact h.at_block hst hlt hmod (by rw [act]; rfl) next
  | jump act target => exact .br hk (.here (h.at_block hst hlt hmod (by rw [act]; rfl) target))
  | ret act =>
    rw [List.append_nil]
    refine .stop (.inl hk) ?_
    rcases act with act | ⟨tgt, act⟩ <;> rw [act] <;> rfl
  | ijump act =>
    rw [List.append_nil]
    exact .stop (.inr hk) (by rw [act]; rfl)
  | leave act hu hv =>
    have hs : (body a).act.succ? a taken = some (a + 4) := by
      cases hact : (body a).act with
      | icall => rfl
      | cvt => rfl
      | _ => rw [hact] at act; exact nomatch act
    have hP : ∀ b, t.findBB (a + 4) = some b → Next opts body st e t a taken (t.bbs b).insts :=
      fun b hb => h.at_block hst hlt hmod hs hb
    exact .helper hk (h.region hst hlt hmod act hu hP) (h.region hst hlt hmod act hv hP)

theorem ends (hl : Ends opts body t a l) :
    Leads t a taken (Next opts body st e t a taken) ((body a).act.succ? a taken = none) l [] := by
  induction hl with
  | skip kind mark _ ih => exact .unmarked mark (.op kind ih)
  | @term i mark term =>
    have hgo : Leads t a taken _ _ [i] (t.marks i.id).toList := h.term hst hlt hmod term
    rwa [mark] at hgo

/-- **From one instruction to the next.** Its code passes its own mark and nothing else. -/
theorem leads_own {e' : Nat} (hterm : (terminator l).isSome) (hc : Code opts body t a l e')
    (he : a < e') :
    Leads t a taken (Next opts body st e t a taken) ((body a).act.succ? a taken = none) l [a] := by
  induction hc with
  | stop a => omega
  | glue mark kind find => omega
  | skip kind mark _ ih =>
    exact .unmarked mark (.op kind (ih hst hlt hmod (terminator_cons kind hterm) he))
  | @visit a e' i l kind mark act rest =>
    have hs : (body a).act.succ? a taken = some (a + 4) := by
      cases hact : (body a).act with
      | next => rfl
      | call _ => rfl
      | icall => rfl
      | cvt => rfl
      | _ => rw [hact] at act; exact nomatch act
    have hnext := h.next a taken (a + 4) hst hlt hmod hs
    have hgo : Leads t a taken (Next opts body st e t a taken)
        ((body a).act.succ? a taken = none) (i :: l) ((t.marks i.id).toList ++ []) :=
      .op kind (.here ⟨a + 4, hs, hnext, terminator_cons kind hterm, e', rest⟩)
    rwa [mark] at hgo
  | @enter a i l kind mark rest =>
    have hends : Leads t a taken _ _ l [] := h.ends hst hlt hmod rest
    have hgo := Leads.op kind hends
    rwa [mark] at hgo
  | @term a i mark term =>
    have hgo : Leads t a taken _ _ [i] (t.marks i.id).toList := h.term hst hlt hmod term
    rwa [mark] at hgo

end Instruction

/-- The same from wherever the code of the instruction is reached: its block may be
another one, that the code before branches to. -/
theorem leads (h : Done opts body st e t) (hat : At opts body st e t a l) :
    Leads t a taken (Next opts body st e t a taken) ((body a).act.succ? a taken = none) l [a] := by
  obtain ⟨⟨hst, hlt, hmod⟩, hterm, e', hc⟩ := hat
  induction hc with
  | stop a => exact nomatch hterm
  | @glue a i b mark kind find =>
    obtain ⟨hterm', e', hcode, he⟩ := h.block a b find hlt
    exact .unmarked mark (.br kind (h.leads_own hst hlt hmod hterm' hcode he))
  | skip kind mark _ ih =>
    exact .unmarked mark (.op kind (ih hst hlt hmod (terminator_cons kind hterm)))
  | visit kind mark act rest =>
    exact h.leads_own hst hlt hmod hterm (.visit kind mark act rest) (by have := rest.le; omega)
  | enter kind mark rest =>
    exact h.leads_own hst hlt hmod hterm (.enter kind mark rest) (by omega)
  | term mark term => exact h.leads_own hst hlt hmod hterm (.term mark term) (by omega)

end Done

/-- The rest of the code of an instruction that leaves its block. -/
theorem Ends.leaves (h : Ends opts body t a l) (hl : (body a).act.leaves opts = true)
    (hgo : ∀ y ∈ t.ubbs a, Leads t a taken P stop (t.bbs y).insts []) :
    Leads t a taken P stop l [] := by
  induction h with
  | skip kind mark _ ih => exact .unmarked mark (.op kind ih)
  | term mark term =>
    obtain ⟨u, v, hk, hu, hv⟩ := term.helper hl
    exact .unmarked mark (.helper hk (hgo u hu) (hgo v hv))

/-- Code that marks nothing. -/
theorem Code.unmarked (h : Code opts body t a l a) (hs : Straight l) : Quiet t l := by
  intro i hi
  refine ⟨hs i hi, ?_⟩
  by_contra hm
  obtain ⟨c, hc⟩ := Option.ne_none_iff_exists'.mp hm
  have := h.marked.mp ⟨i, hi, hc⟩
  omega

/-- The last instruction of open code, that runs on to what follows. -/
theorem Code.leads_open {i : Instr} {m w : List Instr} (h : Code opts body t a (i :: m) (a + 4))
    (hi : t.marks i.id = some a) (hs : Straight m) (hw : P w)
    (hstays : (body a).act.stays opts = true) : Leads t a taken P stop (i :: (m ++ w)) [a] := by
  cases h with
  | skip kind mark => exact nomatch hi.symm.trans mark
  | visit kind mark act rest =>
    have hop : Leads t a taken P stop (i :: (m ++ w)) _ :=
      .op kind (.quiet (rest.unmarked hs) (.here hw))
    rwa [hi] at hop
  | enter kind mark rest =>
    obtain ⟨k, j, -, -, -, ht⟩ := rest.terminator
    exact nomatch hstays.symm.trans ht.not_stays
  | term mark term => exact nomatch hstays.symm.trans term.not_stays

/-- An instruction that goes on in untracked blocks leads where these do. -/
theorem Code.leads_away {i : Instr} {m : List Instr} (h : Code opts body t a (i :: m) (a + 4))
    (hi : t.marks i.id = some a) (hl : (body a).act.leaves opts = true)
    (hgo : ∀ y ∈ t.ubbs a, Leads t a taken P stop (t.bbs y).insts []) :
    Leads t a taken P stop (i :: m) [a] := by
  cases h with
  | skip kind mark => exact nomatch hi.symm.trans mark
  | visit kind mark act => exact nomatch act.symm.trans (Act.stays_of_leaves hl)
  | enter kind mark rest =>
    have hop := Leads.op kind (rest.leaves hl hgo)
    rwa [hi] at hop
  | term mark term =>
    obtain ⟨u, v, hk, hu, hv⟩ := term.helper hl
    have hhelper := Leads.helper hk (hgo u hu) (hgo v hv)
    rwa [hi] at hhelper

/-! ### The end of a function -/

theorem Act.succ_falls {act : Act} (h : act.falls = true) (a : Nat) :
    act.succ? a false = some (a + 4) := by
  cases act with
  | next | call _ | icall | cvt | branch _ => rfl
  | jump _ | ret | ijump | tail _ => exact nomatch h

theorem Act.falls_of_stays {act : Act} (h : act.stays opts = true) : act.falls = true := by
  cases act with
  | next | call _ | icall | cvt | branch _ => rfl
  | jump _ | ret | ijump | tail _ => exact nomatch h

theorem Act.falls_of_leaves {act : Act} (h : act.leaves opts = true) : act.falls = true := by
  cases act with
  | icall | cvt => rfl
  | _ => exact nomatch h

theorem Act.stays_or_leaves {act : Act} (hf : act.falls = true) (ht : act.target? = none) :
    act.stays opts = true ∨ act.leaves opts = true := by
  cases act with
  | next | call _ => exact .inl rfl
  | icall | cvt => simp only [Act.stays, Bool.not_eq_true', Bool.eq_false_or_eq_true_self]
  | branch _ => cases ht
  | jump _ | ret | ijump | tail _ => cases hf

/-- Straight code is that of instructions that stay. -/
theorem Code.stays {e' : Nat} (h : Code opts body t a l e') (hs : Straight l) (hle : a ≤ c)
    (hlt : c < e') (hmod : c % 4 = a % 4) : (body c).act.stays opts = true := by
  induction h with
  | stop a => omega
  | glue mark kind find => omega
  | skip kind mark _ ih => exact ih (fun i hi => hs i (List.mem_cons_of_mem _ hi)) hle hlt hmod
  | @visit a e' i l kind mark act rest ih =>
    by_cases hc : c = a
    · rw [hc]
      exact act
    · exact ih (fun i hi => hs i (List.mem_cons_of_mem _ hi)) (by omega) hlt (by omega)
  | enter kind mark rest =>
    obtain ⟨m, j, rfl, -, -, ht⟩ := rest.terminator
    have hj := ht.isTerminator
    rw [hs j (by simp)] at hj
    exact nomatch hj
  | term mark term =>
    have hj := term.isTerminator
    rw [hs _ List.mem_cons_self] at hj
    exact nomatch hj

theorem terminator_isSome (h : ¬ Straight l) (hc : Code opts body t a l c) :
    (terminator l).isSome = true := by
  rcases hc.straight_or with hs | ⟨m, i, rfl, -, hi, -⟩
  · exact absurd hs h
  · rw [terminator_append, if_pos hi]
    rfl

/-- The instructions of a function lead to instructions of it. -/
def Inside (body : Nat → Inst) (st e : Nat) : Prop :=
  ∀ a taken c, st ≤ a → a < e → a % 4 = 0 → (body a).act.succ? a taken = some c →
    st ≤ c ∧ c < e ∧ c % 4 = 0

theorem Inside.of_targets (hmod : a % 4 = 0)
    (htgt : ∀ c tgt, st ≤ c → c < a + 4 → c % 4 = 0 → (body c).act.target? = some tgt →
      st ≤ tgt ∧ tgt < a + 4)
    (hlast : (body a).act.falls = false) : Inside body st (a + 4) := by
  intro b taken c hst hlt hb hs
  have hnext : (body b).act.falls = true → st ≤ b + 4 ∧ b + 4 < a + 4 ∧ (b + 4) % 4 = 0 := by
    intro hf
    have hne : b ≠ a := by
      rintro rfl
      rw [hlast] at hf
      exact nomatch hf
    omega
  have hjump : ∀ tgt, (body b).act.target? = some tgt →
      st ≤ tgt ∧ tgt < a + 4 ∧ tgt % 4 = 0 := fun tgt htg =>
    ⟨(htgt b tgt hst hlt hb htg).1, (htgt b tgt hst hlt hb htg).2, (body b).aligned tgt htg⟩
  cases hact : (body b).act with
  | next | call _ | icall | cvt =>
    rw [hact] at hs hnext
    obtain rfl := Option.some.inj hs
    exact hnext rfl
  | branch tgt =>
    rw [hact] at hs hnext hjump
    obtain rfl := Option.some.inj hs
    cases taken with
    | true => exact hjump tgt rfl
    | false => exact hnext rfl
  | jump tgt =>
    rw [hact] at hs hjump
    obtain rfl := Option.some.inj hs
    exact hjump tgt rfl
  | ret | ijump | tail _ =>
    rw [hact] at hs
    exact nomatch hs

/-- The last instruction does not fall through. -/
theorem Inside.last (h : Inside body st (a + 4)) (hst : st ≤ a) (hmod : a % 4 = 0) :
    (body a).act.falls = false := by
  by_contra hf
  have := h a false (a + 4) hst (by omega) hmod (Act.succ_falls (Bool.not_eq_false _ ▸ hf) a)
  omega

variable {bad : Nat → Prop} {main k : Nat}

/-- Where the code of a block ends at the end of the function, it is complete. -/
theorem Inv.terminated (h : Inv opts body n st bad t (a + 4) main k) (hst : st ≤ a)
    (hin : Inside body st (a + 4)) : (terminator (t.bbs main).insts).isSome = true := by
  have hmod := h.aligned
  refine terminator_isSome (fun hs => ?_) h.code
  have hk := (h.bounds k ⟨main, h.key⟩).2
  have hkl : k ≤ a := by
    rcases h.start with hk' | ⟨-, hk'⟩ <;> omega
  have hf := Act.falls_of_stays (h.code.stays hs hkl (by omega) (by omega))
  rw [hin.last hst (by omega)] at hf
  exact nomatch hf

theorem Inv.done (h : Inv opts body n st bad t (a + 4) main k) (hst : st ≤ a)
    (hin : Inside body st (a + 4))
    (hbad : ∀ c, st ≤ c → c < a + 4 → c % 4 = 0 → (body c).act.leaves opts = true → ¬ bad c) :
    Done opts body st (a + 4) t := by
  have hmod := h.aligned
  refine ⟨h.entry, fun c b hb hlt => ?_, fun c h₁ h₂ h₃ hl => ?_,
    fun c b hb => (h.heap.helper c b hb).2.1, hin⟩
  · by_cases hc : c = k
    · subst hc
      obtain rfl : main = b := Option.some.inj (h.key.symm.trans hb)
      exact ⟨h.terminated hst hin, a + 4, h.code, hlt⟩
    · rcases (h.rest c b hb hc).2 with hs | ⟨hle, -⟩
      · obtain ⟨e', hcode, hlt', -⟩ := hs.code
        exact ⟨hs.terminated, e', hcode, hlt'⟩
      · omega
  · rcases h.exits c h₁ h₂ h₃ hl with ⟨x, hr, hclosed, -⟩ | ⟨heq, -⟩
    · exact ⟨x, hr, hclosed (hbad c h₁ h₂ h₃ hl)⟩
    · obtain rfl : c = a := by omega
      have hf := Act.falls_of_leaves hl
      rw [hin.last h₁ h₃] at hf
      exact nomatch hf

end RiscvSbt.Block
