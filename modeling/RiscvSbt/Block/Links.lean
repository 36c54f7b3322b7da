import RiscvSbt.Block.Flow
import RiscvSbt.Block.Upkeep

/-! Where the branches of a function go.

`Origin` tells what each instruction in the blocks of a function is there for, and so which
blocks it may branch to: those of the targets of guest branches and jumps, of the instruction
behind a guest branch, and of the address that the code in front runs on to. -/
namespace RiscvSbt.Block
open Library State

section Predicates
variable (opts : Options) (body : Nat → Inst) (st addr : Nat) (s : State)

/-- A guest branch or jump before `addr` goes to `k`. -/
def Targeted (k : Nat) : Prop :=
  ∃ c, st ≤ c ∧ c < addr ∧ c % 4 = 0 ∧ (body c).act.target? = some k

/-- What an instruction before `addr` is there for. -/
inductive Origin : Kind → Prop where
  | op : Origin .op
  | term {c : Nat} {kind : Kind} (range : st ≤ c ∧ c < addr ∧ c % 4 = 0)
      (term : Term opts body s c kind) : Origin kind
  | runOn {k b : Nat} (range : st < k ∧ k ≤ addr) (find : s.findBB k = some b)
      (last : k = addr → Targeted body st addr k) : Origin (.br b)
  | helper {kind : Kind} (guest : kind ≠ .indBr) (succs : ∀ z ∈ kind.succs, ∃ a, z ∈ s.ubbs a) :
      Origin kind

end Predicates

variable {opts : Options} {body : Nat → Inst} {n st : Nat} {bad : Nat → Prop} {s t : State}
  {addr main k : Nat} {labels : Map Nat PendingReloc} {l : List Instr}

/-- The terminator of a branch or a jump goes to the block of its target. -/
theorem Term.goes {a tgt : Nat} {kind : Kind} (h : Term opts body s a kind)
    (ht : (body a).act.target? = some tgt) : ∃ b, s.findBB tgt = some b ∧
      (kind = .br b ∨ ∃ n, kind = .condBr (.guest a) b n) := by
  cases h with
  | @branch _ bt bn act target =>
    rw [act] at ht
    obtain rfl := Option.some.inj ht
    exact ⟨bt, target, .inr ⟨bn, rfl⟩⟩
  | @jump _ bt act target =>
    rw [act] at ht
    obtain rfl := Option.some.inj ht
    exact ⟨bt, target, .inl rfl⟩
  | ret act =>
    rcases act with act | ⟨_, act⟩ <;> (rw [act] at ht; cases ht)
  | ijump act =>
    rw [act] at ht
    cases ht
  | leave act =>
    cases hact : (body a).act with
    | branch _ | jump _ =>
      rw [hact] at act
      cases act
    | _ =>
      rw [hact] at ht
      cases ht

theorem Term.target {a tgt b : Nat} {kind : Kind} (h : Term opts body s a kind)
    (ht : (body a).act.target? = some tgt) (hb : s.findBB tgt = some b) : b ∈ kind.succs := by
  obtain ⟨b', hb', hkind⟩ := h.goes ht
  obtain rfl := Option.some.inj (hb'.symm.trans hb)
  rcases hkind with rfl | ⟨n, rfl⟩ <;> exact List.mem_cons_self

/-- A branch that is not taken goes to the block of the next instruction. -/
theorem Term.fall {a tgt b : Nat} {kind : Kind} (h : Term opts body s a kind)
    (ht : (body a).act = .branch tgt) (hb : s.findBB (a + 4) = some b) : b ∈ kind.succs := by
  cases h with
  | branch _ _ next =>
    obtain rfl := Option.some.inj (next.symm.trans hb)
    exact List.mem_cons_of_mem _ List.mem_cons_self
  | jump act =>
    rw [ht] at act
    cases act
  | ret act =>
    rcases act with act | ⟨_, act⟩ <;> (rw [ht] at act; cases act)
  | ijump act =>
    rw [ht] at act
    cases act
  | leave act =>
    rw [ht] at act
    cases act

theorem Term.indirect {a : Nat} {kind : Kind} (h : Term opts body s a kind)
    (ht : (body a).act = .ijump) : kind = .indBr := by
  cases h with
  | ijump => rfl
  | branch act | jump act =>
    rw [ht] at act
    cases act
  | ret act =>
    rcases act with act | ⟨_, act⟩ <;> (rw [ht] at act; cases act)
  | leave act =>
    rw [ht] at act
    cases act

/-- Where an instruction branches to. -/
theorem Origin.succ {kind : Kind} {x : Nat} (h : Origin opts body st addr s kind)
    (hx : x ∈ kind.succs) : (∃ a, x ∈ s.ubbs a) ∨ ∃ k, s.findBB k = some x ∧
      (Targeted body st addr k ∨
        (∃ c tgt, st ≤ c ∧ c < addr ∧ c % 4 = 0 ∧ (body c).act = .branch tgt ∧ c + 4 = k) ∨
        (st < k ∧ k < addr)) := by
  cases h with
  | op => cases hx
  | @term c _ range ht =>
    obtain ⟨h₁, h₂, h₃⟩ := range
    cases ht with
    | branch act target next =>
      rcases List.mem_cons.mp hx with rfl | hx
      · exact .inr ⟨_, target, .inl ⟨c, h₁, h₂, h₃, by rw [act]; rfl⟩⟩
      · obtain rfl := List.mem_singleton.mp hx
        exact .inr ⟨_, next, .inr (.inl ⟨c, _, h₁, h₂, h₃, act, rfl⟩)⟩
    | jump act target =>
      obtain rfl := List.mem_singleton.mp hx
      exact .inr ⟨_, target, .inl ⟨c, h₁, h₂, h₃, by rw [act]; rfl⟩⟩
    | ret => cases hx
    | ijump => cases hx
    | leave _ hu hv =>
      rcases List.mem_cons.mp hx with rfl | hx
      · exact .inl ⟨c, hu⟩
      · obtain rfl := List.mem_singleton.mp hx
        exact .inl ⟨c, hv⟩
  | @runOn k _ range find last =>
    obtain rfl := List.mem_singleton.mp hx
    refine .inr ⟨k, find, ?_⟩
    rcases Nat.lt_or_eq_of_le range.2 with hlt | heq
    · exact .inr (.inr ⟨range.1, hlt⟩)
    · exact .inl (last heq)
  | helper _ succs => exact .inl (succs x hx)

/-- An indirect branch is that of an indirect jump. -/
theorem Origin.ijump (h : Origin opts body st addr s .indBr) :
    ∃ c, st ≤ c ∧ c < addr ∧ c % 4 = 0 ∧ (body c).act = .ijump := by
  cases h with
  | @term c _ range ht =>
    cases ht with
    | ijump act => exact ⟨c, range.1, range.2.1, range.2.2, act⟩
  | helper guest => exact absurd rfl guest

/-- A target that is not reached yet has a block. -/
theorem Ahead.has {c : Nat} (ha : Ahead opts body st labels addr s) (hle : addr ≤ c)
    (ht : Targeted body st addr c) : HasBB s c := by
  rcases Nat.lt_or_eq_of_le hle with hlt | rfl
  · exact (ha.keys c hlt).mpr ht
  · obtain ⟨a, h₁, h₂, h₃, h₄⟩ := ht
    exact ha.here.mpr (.inr ⟨a, h₁, h₂, h₃, .inl h₄⟩)

/-- The instructions of a block's code. It may run on to `e`, if that is allowed. -/
theorem Code.origin {c e : Nat} (h : Code opts body s c l e) (hst : st ≤ c) (he : e ≤ addr)
    (hmod : c % 4 = 0)
    (hend : ¬ Straight l → (∀ a, c ≤ a → a + 4 = e → (body a).act.stays opts = true) →
      ∀ b, s.findBB e = some b → st < e ∧ (e = addr → Targeted body st addr e)) :
    ∀ i ∈ l, Origin opts body st addr s i.kind := by
  have hcons : ∀ {i : Instr} {l : List Instr}, i.kind = .op →
      (∀ j ∈ l, Origin opts body st addr s j.kind) →
      ∀ j ∈ i :: l, Origin opts body st addr s j.kind := by
    intro i l hk hl j hj
    rcases List.mem_cons.mp hj with rfl | hj
    · rw [hk]
      exact .op
    · exact hl j hj
  have hnot : ∀ {i : Instr} {l : List Instr}, ¬ Straight l → ¬ Straight (i :: l) :=
    fun hl hs => hl fun j hj => hs j (List.mem_cons_of_mem _ hj)
  induction h with
  | stop a => exact fun _ hi => nomatch hi
  | @glue c i b mark kind find =>
    have hs : ¬ Straight [i] := fun hs => by
      have hop := hs i (List.mem_singleton.mpr rfl)
      rw [kind] at hop
      cases hop
    obtain ⟨h₁, h₂⟩ := hend hs (fun a h₁ h₂ => by omega) b find
    intro j hj
    rw [List.mem_singleton.mp hj, kind]
    exact .runOn ⟨h₁, he⟩ find h₂
  | skip kind mark _ ih => exact hcons kind (ih hst he hmod fun hs => hend (hnot hs))
  | @visit c e i l kind mark act rest ih =>
    have hmod' := rest.mod
    refine hcons kind (ih (by omega) he (by omega) fun hs hall => hend (hnot hs) fun a h₁ h₂ => ?_)
    by_cases ha : a = c
    · rw [ha]
      exact act
    · exact hall a (by omega) h₂
  | @enter c i l kind mark rest =>
    refine hcons kind fun j hj => ?_
    obtain ⟨m, x, rfl, hm, -, ht⟩ := rest.terminator
    rcases List.mem_append.mp hj with hj | hj
    · rw [(hm j hj).1]
      exact .op
    · rw [List.mem_singleton.mp hj]
      exact .term ⟨hst, by omega, hmod⟩ ht
  | term mark term =>
    intro j hj
    rw [List.mem_singleton.mp hj]
    exact .term ⟨hst, by omega, hmod⟩ term

/-- The code of an instruction that ends its block is the end of the block. -/
theorem Code.ends_at {c e a : Nat} (h : Code opts body s c l e) (hle : c ≤ a) (hlt : a < e)
    (hmod : a % 4 = c % 4) (hs : (body a).act.stays opts = false) :
    ∃ top i m j, l = top ++ i :: m ∧ s.marks i.id = some a ∧ (∀ x ∈ m, s.marks x.id = none) ∧
      (i :: m).getLast? = some j ∧ Term opts body s a j.kind := by
  obtain ⟨top, i, bottom, rfl, hi, -, -, hc⟩ := h.cut hle hlt hmod
  cases hc with
  | skip kind mark rest =>
    rw [mark] at hi
    cases hi
  | visit kind mark act rest =>
    rw [act] at hs
    cases hs
  | enter kind mark rest =>
    obtain ⟨m, j, rfl, hm, hj, ht⟩ := rest.terminator
    refine ⟨top, i, m ++ [j], j, rfl, hi, fun x hx => ?_, List.getLast?_concat (l := i :: m), ht⟩
    rcases List.mem_append.mp hx with hx | hx
    · exact (hm x hx).2
    · rw [List.mem_singleton.mp hx]
      exact hj
  | term mark term => exact ⟨top, i, [], i, rfl, hi, fun x hx => (nomatch hx), rfl, term⟩
  | glue mark kind find =>
    rw [mark] at hi
    cases hi

theorem Code.ending {c e a : Nat} (h : Code opts body s c l e) (hle : c ≤ a) (hlt : a < e)
    (hmod : a % 4 = c % 4) (hs : (body a).act.stays opts = false) :
    ∃ i ∈ l, Term opts body s a i.kind := by
  obtain ⟨top, i, m, j, rfl, -, -, hj, ht⟩ := h.ends_at hle hlt hmod hs
  exact ⟨j, List.mem_append_right _ (List.mem_of_getLast? hj), ht⟩

namespace Inv

/-- Blocks of translated code are not empty. -/
theorem filled (h : Inv opts body n st bad s addr main k) {c b : Nat} (hb : s.findBB c = some b)
    (hlt : c < addr) : (s.bbs b).insts ≠ [] := by
  intro hnil
  by_cases hc : c = k
  · subst hc
    obtain rfl : main = b := Option.some.inj (h.key.symm.trans hb)
    have hcode := h.code
    rw [hnil] at hcode
    cases hcode
    exact lt_irrefl _ hlt
  · rcases (h.rest c b hb hc).2 with hs | ⟨hle, -⟩
    · have hterm := hs.terminated
      rw [hnil] at hterm
      cases hterm
    · exact absurd hlt (Nat.not_lt.mpr hle)

/-- Blocks of code to come are empty, and nothing is put there yet. -/
theorem blank (h : Inv opts body n st bad s addr main k) (hst : st < addr) {c b : Nat}
    (hb : s.findBB c = some b) (hle : addr ≤ c) :
    (s.bbs b).insts = [] ∧ b ≠ s.bld.insertBlock := by
  have hc : c ≠ k := by
    rcases h.start with hk | ⟨-, hk⟩ <;> omega
  refine ⟨?_, ?_⟩
  · rcases (h.rest c b hb hc).2 with hs | ⟨-, hnil⟩
    · obtain ⟨e, -, h₁, h₂, -⟩ := hs.code
      omega
    · exact hnil
  · rintro rfl
    rcases h.insert with hi | ⟨a, -, hmem⟩
    · exact h.heap.find_ne hb h.key hc hi
    · exact h.heap.find_ubbs hb hmem

/-- A block that is branched to where the code ends is a target. -/
theorem targeted (ha : Ahead opts body st labels addr s) (hst : st < addr)
    (hlast : ∀ a, a + 4 = addr → (body a).act.target? = none) (hb : HasBB s addr) :
    Targeted body st addr addr := by
  rcases ha.here.mp hb with heq | ⟨a, h₁, h₂, h₃, h₄ | ⟨h₄, h₅⟩⟩
  · omega
  · exact ⟨a, h₁, h₂, h₃, h₄⟩
  · rw [hlast a h₄] at h₅
    cases h₅

/-- **What the blocks of a function hold.** -/
theorem origin (h : Inv opts body n st bad s addr main k) (ha : Ahead opts body st labels addr s)
    {b : Nat} (hn : n ≤ b) (hlt : b < s.nextBlock) :
    ∀ i ∈ (s.bbs b).insts, Origin opts body st addr s i.kind := by
  have hstays : ∀ {a : Nat}, (body a).act.stays opts = true → (body a).act.target? = none := by
    intro a hs
    by_contra hne
    obtain ⟨tgt, htgt⟩ := Option.ne_none_iff_exists'.mp hne
    rw [Act.stays_target htgt] at hs
    cases hs
  have hleaves : ∀ {a : Nat}, (body a).act.leaves opts = true → (body a).act.target? = none := by
    intro a hl
    cases hact : (body a).act with
    | branch _ | jump _ => rw [hact] at hl; cases hl
    | _ => rfl
  rcases h.heap.owned b hn hlt with ⟨c, hc⟩ | ⟨a, hy⟩
  · obtain ⟨hst, hmod⟩ := h.bounds c ⟨b, hc⟩
    by_cases hck : c = k
    · subst hck
      obtain rfl : main = b := Option.some.inj (h.key.symm.trans hc)
      refine h.code.origin hst (le_refl _) hmod fun hs hall b hb => ?_
      -- The main block runs on to the end only if it was closed for that.
      have hterm := terminator_isSome hs h.code
      have hmain : s.bld.insertBlock = main := by
        rcases h.insert with hi | ⟨a, ha', hmem⟩
        · exact hi
        · obtain ⟨h₁, h₂, h₃, h₄⟩ := h.helpers a _ hmem
          have hca : c ≤ a := by
            have := h.aligned
            rcases h.start with hk | ⟨-, hk⟩ <;> omega
          have hst' := hall a hca ha'
          rw [Act.stays_of_leaves h₄] at hst'
          cases hst'
      have hlt' : st < addr := by
        refine (h.cursor (.inl ?_)).2
        unfold State.insertBB BasicBlock.terminated
        rw [hmain]
        exact hterm
      refine ⟨hlt', fun _ => targeted ha hlt' (fun a h₁ => hstays (hall a ?_ h₁)) ⟨b, hb⟩⟩
      have := h.aligned
      rcases h.start with hk | ⟨-, hk⟩ <;> omega
    · rcases (h.rest c b hc hck).2 with hs | ⟨-, hnil⟩
      · obtain ⟨e, hcode, hlt', he, hhas, hsep⟩ := hs.code
        refine hcode.origin hst he hmod fun _ _ _ _ => ⟨by omega, fun heq => ?_⟩
        rcases hsep k ⟨main, h.key⟩ with hk | hk
        · rcases h.gap c ⟨b, hc⟩ with hg | hg <;> omega
        · rcases h.start with hk' | ⟨-, hk'⟩ <;> omega
      · rw [hnil]
        exact fun _ hi => nomatch hi
  · obtain ⟨h₁, h₂, h₃, hl⟩ := h.helpers a b hy
    have hquiet : ∀ {m : List Instr} {j : Instr}, (s.bbs b).insts = m ++ [j] → Quiet s m →
        Origin opts body st addr s j.kind → ∀ i ∈ (s.bbs b).insts,
          Origin opts body st addr s i.kind := by
      intro m j heq hm hj i hi
      rw [heq] at hi
      rcases List.mem_append.mp hi with hi | hi
      · rw [(hm i hi).1]
        exact .op
      · rw [List.mem_singleton.mp hi]
        exact hj
    have hregion : ∀ {x : Nat}, Region s a x → b ≠ x →
        ∀ i ∈ (s.bbs b).insts, Origin opts body st addr s i.kind := by
      intro x hr hbx
      obtain ⟨m, j, heq, hm, -, hk, hz⟩ := hr.forward b hy hbx
      refine hquiet heq hm (.helper ?_ fun z hz' => ⟨a, (hz z hz').1⟩)
      rcases hk with ⟨z, hk⟩ | ⟨z, w, hk⟩ <;> rw [hk] <;> exact nofun
    have hopen : Quiet s (s.bbs b).insts →
        ∀ i ∈ (s.bbs b).insts, Origin opts body st addr s i.kind := fun hq i hi => by
      rw [(hq i hi).1]
      exact .op
    rcases h.exits a h₁ h₂ h₃ hl with ⟨x, hr, hclosed, hbad⟩ | ⟨heq, -, hr, hq⟩
    · by_cases hbx : b = x
      · by_cases hb : bad a
        · exact hopen (hbx ▸ (hbad hb).1)
        · obtain ⟨m, j, y, heq, hm, -, hk, hfind⟩ := hclosed hb
          refine hquiet (hbx ▸ heq) hm ?_
          rw [hk]
          refine .runOn ⟨by omega, ?_⟩ hfind fun heq => ?_
          · have := h.aligned
            omega
          · rw [heq] at hfind ⊢
            exact targeted ha (by omega) (fun c hc => by
              obtain rfl : c = a := by omega
              exact hleaves hl) ⟨y, hfind⟩
      · exact hregion hr hbx
    · by_cases hbx : b = s.bld.insertBlock
      · exact hopen (hbx ▸ hq)
      · exact hregion hr hbx

/-- The block that an instruction of the function is in. -/
theorem code_at (h : Inv opts body n st bad s addr main k) {a : Nat} (hst : st ≤ a) (hlt : a < addr)
    (hmod : a % 4 = 0) : ∃ c b e, s.findBB c = some b ∧ Code opts body s c (s.bbs b).insts e ∧
      c ≤ a ∧ a < e ∧ a % 4 = c % 4 := by
  have hcov := h.covered
  obtain ⟨c, b, -, hb, hle, hmax⟩ := Mid.getBackBB_spec hcov.entry hst
  have hget := hcov.holds hlt hmod hb hle hmax
  have hfound : ∀ {e}, Code opts body s c (s.bbs b).insts e → Recorded s b (s.bbs b).insts →
      ∃ c b e, s.findBB c = some b ∧ Code opts body s c (s.bbs b).insts e ∧ c ≤ a ∧ a < e ∧
        a % 4 = c % 4 := fun hcode hrec => by
    obtain ⟨h₁, h₂, h₃⟩ := (Covered.get?_isSome hcode hrec).mp hget
    exact ⟨c, b, _, hb, hcode, h₁, h₂, h₃⟩
  by_cases hck : c = k
  · subst hck
    obtain rfl := Option.some.inj (h.key.symm.trans hb)
    exact hfound h.code h.recorded
  · obtain ⟨hrec, hs | ⟨hle', -⟩⟩ := h.rest c b hb hck
    · obtain ⟨e, hcode, -⟩ := hs.code
      exact hfound hcode hrec
    · omega

/-- **What an instruction that ends its block leaves there.** -/
theorem ending (h : Inv opts body n st bad s addr main k) {a : Nat} (hst : st ≤ a) (hlt : a < addr)
    (hmod : a % 4 = 0) (hs : (body a).act.stays opts = false) :
    ∃ b, n ≤ b ∧ b < s.nextBlock ∧ ∃ i ∈ (s.bbs b).insts, Term opts body s a i.kind := by
  obtain ⟨c, b, e, hb, hcode, hle, he, hmod'⟩ := h.code_at hst hlt hmod
  obtain ⟨i, hi, ht⟩ := hcode.ending hle he hmod' hs
  obtain ⟨hn, hlt', -⟩ := h.heap.tracked c b hb
  exact ⟨b, hn, hlt', i, hi, ht⟩

end Inv
end RiscvSbt.Block
