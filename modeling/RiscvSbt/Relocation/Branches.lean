import RiscvSbt.Context.Targets
import RiscvSbt.Relocation.Calls

/-! Branches and jumps through relocations.

Their target is the value of the relocation with the address of the instruction added to it
again, and has to be an integer then. The value of a known function is the host's, that is
no integer, for all relocations but those of `jal`. What has such a target is translated as an
instruction that goes there (`Context.Carried`). -/
namespace RiscvSbt.Relocation
open Library Context

/-- The instructions that go to an offset from their own address. -/
inductive BranchType where
  | JAL (linkReg : Nat)
  | BEQ
  | BNE
  | BGE
  | BGEU
  | BLT
  | BLTU
  deriving DecidableEq, Repr

namespace BranchType

def linkReg : BranchType → Nat
  | JAL linkReg => linkReg
  | _ => 0

/-- Where an instruction that hits its target is dispatched to. -/
def hit (bt : BranchType) (target : Nat) : Action :=
  if bt.linkReg ≠ 0 then .CALL target else .JUMP target

/-- What the handlers it is dispatched to make of it: `handleCall`, or `handleJump` with the
condition of the instruction, that `jal` does not have. -/
def act (bt : BranchType) (target : Nat) : Block.Act :=
  if bt.linkReg ≠ 0 then .call target
  else match bt with
    | JAL _ => .jump target
    | _ => .branch target

end BranchType

/-- `translateBranch`, of all but `jalr`. -/
def translateBranch (e : Env) (s : State) (rel : SBTRelocation) (addr : Nat) (bt : BranchType)
    (imm : BitVec 32) : Except String (Action × State × SBTRelocation) :=
  jal e s rel addr bt.linkReg imm

/-- The guest address that a relocation refers to. -/
def Reloc.target (r : Reloc) : Nat := (r.value + r.addend).toNat

variable {e : Env} {s t : State} {r : Reloc} {rel rel' : SBTRelocation} {addr target : Nat}
  {bt : BranchType} {imm : BitVec 32} {v : Const} {last : Option Const}

/-- The function at the target is found: it is registered and alive, or it lies ahead. -/
def FunctionFound (e : Env) (s : State) (target : Nat) : Prop :=
  ∃ o t obj, funcAt e s target = .ok (o, t) ∧ t.objs o = some obj ∧
    (e.useICallerForIIntFuncs = true ∨ t.module.get? obj.name ≠ none)

/-- When a branch or a jump hits. -/
structure Hits (e : Env) (s : State) (r : Reloc) : Prop where
  exact : r.sym = none ∨ r.addend = 0
  label : isFunction e s r.target = true → FunctionFound e s r.target ∧
    (r.type = .JAL ∨ e.useICallerForIIntFuncs = true)

theorem saddr_eq_target (h : r.sym = none ∨ r.addend = 0) (hlt : r.saddr < 2 ^ 32) :
    r.saddr = r.target := by
  rw [Reloc.target, ← saddr_of_exact h, BitVec.toNat_ofNat, Nat.mod_eq_of_lt hlt]

/-- What an offset from an address leads to. -/
theorem offsetAction_int (type : RType) (htype : type = .BRANCH ∨ type = .JAL) (addr : Nat)
    (linkReg : Nat) (v : BitVec 32) :
    offsetAction addr linkReg (relfn type (BitVec.ofNat 32 addr) (.int v)) =
      .ok (if linkReg ≠ 0 then .CALL v.toNat else .JUMP v.toNat) := by
  have hval : formula type (BitVec.ofNat 32 addr) v + BitVec.ofNat 32 addr = v := by
    rcases htype with rfl | rfl <;> exact BitVec.sub_add_cancel v _
  simp only [relfn, offsetAction, hval]
  rfl

theorem offsetAction_addr (type : RType) (pc : BitVec 32) (addr linkReg : Nat) (b : Base)
    (offs : BitVec 32) :
    offsetAction addr linkReg (relfn type pc (.addr b offs)) = .error "cast<ConstantInt>(target)" :=
  rfl

/-- The instruction, by way of the value of its symbol. -/
theorem translateBranch_eq (htext : InText r) (htype : r.type = .BRANCH ∨ r.type = .JAL)
    (hn : rel.next addr = .ok (some r, rel')) :
    translateBranch e s rel addr bt imm = (do
      validate e r
      let (v, last, t) ← localValue e s r.type r.saddr
      let act ← offsetAction addr bt.linkReg (relfn r.type (BitVec.ofNat 32 addr) v)
      pure (act, t, {rel' with last := some r, lastSymVal := some (last.getD v)})) := by
  have hk : known r.type = true := by rcases htype with h | h <;> rw [h] <;> rfl
  have hpc : pcOf r addr = BitVec.ofNat 32 addr := by
    rcases htype with h | h <;> simp [pcOf, RType.readsHiPC, h]
  unfold translateBranch jal getImm
  rw [handleRelocation_eq hn hk, htext.symValue_eq, hpc]
  cases validate e r with
  | error err => rfl
  | ok _ =>
    cases localValue e s r.type r.saddr with
    | error err => rfl
    | ok val =>
      obtain ⟨v, last, t⟩ := val
      rfl

/-- What the lookup of a symbol of the text section gives to a branch or a jump. -/
theorem localValue_int (h : localValue e s r.type target = .ok (v, last, t)) :
    (v = .int (BitVec.ofNat 32 target) ∧ (isFunction e s target = true →
      FunctionFound e s target ∧ (r.type = .JAL ∨ e.useICallerForIIntFuncs = true))) ∨
    ∃ f, v = .addr (.func f) 0 ∧ isFunction e s target = true ∧
      ¬ (r.type = .JAL ∨ e.useICallerForIIntFuncs = true) := by
  unfold localValue at h
  split at h
  next hk =>
    obtain ⟨⟨o, u⟩, hu, h⟩ := bind_ok h
    obtain ⟨obj, hobj, h⟩ := bind_ok h
    obtain ⟨⟨c, l⟩, hc, h⟩ := bind_ok h
    obtain ⟨rfl, -⟩ := Prod.mk.inj (Except.ok.inj h)
    have hfound : e.useICallerForIIntFuncs = true ∨ u.module.get? obj.name ≠ none →
        FunctionFound e s target := fun hs => ⟨o, u, obj, hu, live_ok hobj, hs⟩
    unfold funcValue at hc
    split at hc
    next hi =>
      obtain ⟨rfl, -⟩ := Prod.mk.inj (Except.ok.inj hc)
      exact .inl ⟨rfl, fun _ => ⟨hfound (.inl hi), .inr hi⟩⟩
    next hi =>
      split at hc
      next => cases hc
      next f hf =>
        have hsome : u.module.get? obj.name ≠ none := fun hn => nomatch hf.symm.trans hn
        split at hc
        next htype =>
          obtain ⟨rfl, -⟩ := Prod.mk.inj (Except.ok.inj hc)
          exact .inl ⟨rfl, fun _ => ⟨hfound (.inr hsome), .inl htype⟩⟩
        next htype =>
          obtain ⟨rfl, -⟩ := Prod.mk.inj (Except.ok.inj hc)
          exact .inr ⟨f, rfl, hk, fun hor => hor.elim htype hi⟩
  next hk =>
    obtain ⟨rfl, -⟩ := Prod.mk.inj (Except.ok.inj h)
    exact .inl ⟨rfl, fun hf => absurd hf hk⟩

/-- The other way round: where a function is found it has a value. -/
theorem localValue_found (h : isFunction e s target = true → FunctionFound e s target ∧
    (r.type = .JAL ∨ e.useICallerForIIntFuncs = true)) :
    ∃ last t, localValue e s r.type target = .ok (.int (BitVec.ofNat 32 target), last, t) := by
  unfold localValue
  by_cases hk : isFunction e s target = true
  · obtain ⟨⟨o, t, obj, hat, hobj, hsome⟩, htype⟩ := h hk
    refine ⟨none, t, ?_⟩
    have hvalue : funcValue e t r.type target obj.name =
        .ok (.int (BitVec.ofNat 32 target), none) := by
      unfold funcValue
      by_cases hi : e.useICallerForIIntFuncs = true
      · rw [if_pos hi]
        rfl
      · obtain ⟨f, hf⟩ := Option.ne_none_iff_exists'.mp (hsome.resolve_left hi)
        rw [if_neg hi, hf]
        exact if_pos (htype.resolve_right hi)
    rw [if_pos hk, hat]
    show (t.live o >>= _) = _
    rw [live_eq hobj]
    show (funcValue e t r.type target obj.name >>= _) = _
    rw [hvalue]
    rfl
  · exact ⟨none, s, if_neg hk⟩

theorem hit_inj {a b : Nat} (h : bt.hit a = bt.hit b) : a = b := by
  unfold BranchType.hit at h
  split at h <;> injection h

/-- **When the target of a relocated branch or jump is its label**, whatever the cursor and the
functions known so far. -/
theorem translateBranch_iff {sec : Sec} (hn : rel.next addr = .ok (some r, rel'))
    (htype : r.type = .BRANCH ∨ r.type = .JAL) (hsec : r.sec = some sec) (htext : sec.isText = true)
    (hin : r.saddr < sec.size) (hsize : sec.size ≤ 2 ^ 32) :
    (∃ t rel'', translateBranch e s rel addr bt imm = .ok (bt.hit r.target, t, rel'')) ↔
      Hits e s r := by
  have hlt : r.saddr < 2 ^ 32 := Nat.lt_of_lt_of_le hin hsize
  have hnat : (BitVec.ofNat 32 r.saddr).toNat = r.saddr := by
    rw [BitVec.toNat_ofNat, Nat.mod_eq_of_lt hlt]
  have hvalid : validate e r = .ok () := by
    unfold validate
    rw [hsec]
    cases hsym : r.sym with
    | none => rfl
    | some sym =>
      have hle : ¬ sec.size ≤ sym.addr.toNat := by
        simp only [Reloc.saddr, hsym] at hin
        omega
      simp only [hle, decide_false, Bool.and_false, Bool.false_eq_true, if_false]
      rfl
  rw [translateBranch_eq ⟨sec, hsec, htext⟩ htype hn, hvalid]
  constructor
  · rintro ⟨t, rel'', h⟩
    obtain ⟨-, -, h⟩ := bind_ok h
    obtain ⟨⟨v, last, u⟩, hv, h⟩ := bind_ok h
    obtain ⟨act, hact, h⟩ := bind_ok h
    obtain ⟨rfl, -⟩ := Prod.mk.inj (Except.ok.inj h)
    rcases localValue_int hv with ⟨rfl, hf⟩ | ⟨f, rfl, -⟩
    · rw [offsetAction_int r.type htype, hnat] at hact
      have heq : r.saddr = r.target := hit_inj (Except.ok.inj hact)
      have hexact : r.sym = none ∨ r.addend = 0 := by
        apply exact_of_saddr
        rw [heq, Reloc.target, BitVec.ofNat_toNat, BitVec.setWidth_eq]
      exact ⟨hexact, heq ▸ hf⟩
    · rw [offsetAction_addr] at hact
      cases hact
  · rintro ⟨hexact, hf⟩
    have heq := saddr_eq_target hexact hlt
    rw [← heq] at hf ⊢
    obtain ⟨last, t, hv⟩ := localValue_found hf
    refine ⟨t, {rel' with last := some r, lastSymVal := some (last.getD
      (.int (BitVec.ofNat 32 r.saddr)))}, ?_⟩
    have hact := offsetAction_int r.type htype addr bt.linkReg (BitVec.ofNat 32 r.saddr)
    rw [hnat] at hact
    simp only [bind, Except.bind, hv, hact]
    rfl

/-- What it makes known is what it looks up. -/
theorem translateBranch_looks {sec : Sec} {act : Action} {rel'' : SBTRelocation}
    (hn : rel.next addr = .ok (some r, rel')) (htype : r.type = .BRANCH ∨ r.type = .JAL)
    (hsec : r.sec = some sec) (htext : sec.isText = true)
    (h : translateBranch e s rel addr bt imm = .ok (act, t, rel'')) :
    t = s ∨ ∃ o, s.addr < r.saddr ∧ s.getByAddr e.sec r.saddr = .ok (o, t) := by
  rw [translateBranch_eq ⟨sec, hsec, htext⟩ htype hn] at h
  obtain ⟨-, -, h⟩ := bind_ok h
  obtain ⟨⟨v, last, u⟩, hv, h⟩ := bind_ok h
  obtain ⟨act', -, h⟩ := bind_ok h
  obtain ⟨-, rfl, -⟩ := Prod.mk.inj (Except.ok.inj h)
  unfold localValue at hv
  split at hv
  next =>
    obtain ⟨⟨o, w⟩, hw, hv⟩ := bind_ok hv
    obtain ⟨obj, -, hv⟩ := bind_ok hv
    obtain ⟨⟨c, l⟩, -, hv⟩ := bind_ok hv
    obtain ⟨-, -, rfl⟩ := Prod.mk.inj (Except.ok.inj hv)
    unfold funcAt at hw
    split at hw
    next => exact .inl (Prod.mk.inj (Except.ok.inj hw)).2.symm
    next =>
      split at hw
      next => cases hw
      next hlt => exact .inr ⟨o, Nat.not_le.mp hlt, hw⟩
  next =>
    obtain ⟨-, -, rfl⟩ := Prod.mk.inj (Except.ok.inj hv)
    exact .inl rfl

/-- **When relocated branches and jumps hit their target.** At any instruction of a run, with any
cursor: no addend is dropped, and where a function is at the target it is found, and the value of
the relocation is the guest address. Then a call, in its section, is of the function at the target
if that is what the bare address means; and a branch or a jump gets to the target if this is another
instruction of the range of its function. -/
theorem branch_hits (p : Program) (pending : Map Nat Block.PendingReloc)
    (sections : String → List Block.Constant) (hp : p.Aligned) (c : Config)
    (h : Moves p (Apart p) (fun _ _ _ => True) (Config.init pending sections) c) (l : Loop)
    (hl : c.loop = some l) (hlt : l.addr < l.stop) (hcut : ¬ Cuts c.s l) (obj : Obj)
    (hobj : c.s.objs c.s.cur = some obj) (e : Env) (hcode : p.sections[obj.sec]? = some e.sec)
    (r : Reloc) (rel rel' : SBTRelocation) (hn : rel.next l.addr = .ok (some r, rel'))
    (htype : r.type = .BRANCH ∨ r.type = .JAL) (sec : Sec) (hsec : r.sec = some sec)
    (htext : sec.isText = true) (hin : r.saddr < sec.size) (hsize : sec.size ≤ 2 ^ 32)
    (bt : BranchType) (imm : BitVec 32) (hact : (e.sec.inst l.addr).act = bt.act r.target) :
    ((∃ t rel'', translateBranch e (atAddr c.s l.addr) rel l.addr bt imm =
        .ok (bt.hit r.target, t, rel'')) ↔ Hits e (atAddr c.s l.addr) r) ∧
      ∀ t rel'', translateBranch e (atAddr c.s l.addr) rel l.addr bt imm =
          .ok (bt.hit r.target, t, rel'') →
        Carried p {c with s := t} l obj.sec r.target (bt.act r.target) := by
  refine ⟨translateBranch_iff hn htype hsec htext hin hsize, fun t rel'' ht => ?_⟩
  have hm : Maps c.s := h.maps (Fresh.init (p := p) pending sections).maps
  have hm' : Maps (atAddr c.s l.addr) :=
    ⟨hm.fresh, hm.ids, hm.addr, hm.name, hm.fn, hm.inj⟩
  have hbody : (p.body obj.sec l.addr).act = bt.act r.target := by
    unfold Program.body
    rw [hcode]
    exact hact
  rw [← hbody]
  rcases translateBranch_looks hn htype hsec htext ht with rfl | ⟨o, hahead, hget⟩
  · exact h.carried hp hl hlt hcut hobj (t := atAddr c.s l.addr)
      ⟨rfl, rfl, rfl, rfl, rfl, le_refl _, le_refl _, fun _ _ ho => .inl ho⟩ hm'
      (fun x => .inl rfl) r.target
  · have ha := getByAddr_aside hget
    refine h.carried hp hl hlt hcut hobj (t := t)
      ⟨ha.blk, ha.dests, ha.words, ha.inMain, ha.cur, ha.nextFn, ha.nextObj, ha.objs⟩
      (hm'.getByAddr hget).1 (fun x => ?_) r.target
    exact (getByAddr_next hm' hget x).imp_right fun hle => lt_of_lt_of_le hahead hle

/-- A conditional branch back to the label `.L1`. -/
def backBranch : Reloc := ⟨8, .BRANCH, 0, some ⟨".L1", 4, false⟩, some ⟨".text", true, 16⟩, 0⟩

theorem back_aligned : 4 % 4 = 0 := rfl

def backEnv : Env := {labelEnv with sec := {
  size := 16
  symbols := [{name := "a", addr := 0}]
  inst := fun a =>
    if a = 8 then .branch 1 4 back_aligned else if a = 12 then .ret 0 else .straight 1 }}

def backProgram : Program := {sections := [backEnv.sec], prologue := 2}

/-- From the instruction at 8 on, with its address, the function is translated to its end. -/
def backs (c : Config) : Bool :=
  let c := {c with s := atAddr c.s 8}
  (∀ m < 2, c.checks backProgram m Config.turning = true) && c.checks backProgram 2 fun d =>
    d.loop = some ⟨0, 16, 16⟩ && !d.cutting && (d.step backProgram).toOption.isSome

theorem label_hit : ∃ c d c₂ : Config, c.loop = some ⟨0, 16, 8⟩ ∧
    (∃ t rel'', translateBranch backEnv (atAddr c.s 8) {relocs := [backBranch]} 8 .BNE 0 =
      .ok (.JUMP 4, t, rel'')) ∧
    d.loop = some ⟨0, 16, 16⟩ ∧ d.step backProgram = .ok c₂ ∧
    ∃ key x b, d.s.blk.findBB key = some x ∧ GoesTo c₂.s.blk x 8 b ∧ Begins c₂.s.blk b 4 := by
  obtain ⟨c, hc, hP⟩ := checks_spec (P := fun c => c.loop = some ⟨0, 16, 8⟩ ∧ c.cutting = false ∧
      (c.s.objs c.s.cur).map Obj.sec = some 0 ∧ c.s.funcByAddr.get? 4 = none ∧
      backs c = true)
    (show (Config.init Map.empty fun _ => []).checks backProgram 4 _ = true by decide +kernel)
  obtain ⟨hl, hcut, hobj, hno, hbacks⟩ := of_decide_eq_true hP
  obtain ⟨obj, hobj, hsec⟩ := Option.map_eq_some_iff.mp hobj
  obtain ⟨hturn, hend⟩ := Bool.and_eq_true_iff.mp hbacks
  obtain ⟨d, hd, hend⟩ := checks_spec hend
  simp only [Bool.and_eq_true, decide_eq_true_eq, Bool.not_eq_true'] at hend
  obtain ⟨⟨hl', hcut'⟩, hstep⟩ := hend
  obtain ⟨c₂, hc₂⟩ : ∃ c₂, d.step backProgram = .ok c₂ := by
    cases hs : d.step backProgram with
    | error e =>
      rw [hs] at hstep
      cases hstep
    | ok c₂ => exact ⟨c₂, rfl⟩
  have hreach : Config.Reach backProgram (fun c => c.cutting = false) Map.empty (fun _ => []) c :=
    reach_uncut (by decide +kernel) hc
  have hp : backProgram.Aligned := fun sec hsec sym hsym _ => by
    obtain rfl := List.mem_singleton.mp hsec
    obtain rfl := List.mem_singleton.mp hsym
    rfl
  obtain ⟨hhits, hcarried⟩ := branch_hits backProgram Map.empty (fun _ => []) hp c
    (.of_run (hreach.mono fun _ hc => (uncut hc).1)) _ hl (by decide)
      (not_cuts hcut hl) obj hobj backEnv
    (by rw [hsec]; rfl) backBranch {relocs := [backBranch]} {relocs := []} rfl (.inl rfl) _ rfl rfl
    (by decide) (by decide) .BNE 0 rfl
  have hnone : isFunction backEnv (atAddr c.s 8) 4 = false := by
    unfold isFunction
    rw [show (atAddr c.s 8).funcByAddr.get? 4 = none from hno]
    decide
  obtain ⟨t, rel'', ht⟩ := hhits.mpr ⟨.inr rfl, fun hk => by cases hnone.symm.trans hk⟩
  -- A target behind is not looked up.
  obtain rfl : t = atAddr c.s 8 := (translateBranch_looks (r := backBranch) rfl (.inl rfl) rfl rfl
    ht).resolve_right fun ⟨_, hlt, _⟩ => absurd hlt (show ¬ 8 < 4 by decide)
  have hjump := (hcarried _ _ ht).jump rfl d _ c₂
    (.of_run (turns_of (i := 0) rfl (Nat.zero_le 2) (fun m hm _ => of_decide_eq_true hturn m hm)
      hd)) hl'
    (by decide) (.inr (le_refl _)) (uncut hcut').1 hc₂ c₂ .start
  exact ⟨c, d, c₂, hl, ⟨_, _, ht⟩, hl', hc₂, hjump.mpr (by decide)⟩

/-- A branch to the function `g`. -/
def functionBranch : Reloc := {functionReloc with type := .BRANCH}

theorem function_not_hit :
    translateBranch labelEnv noFunctions {relocs := [functionBranch]} 0 .BNE 0 =
        .error "cast<ConstantInt>(target)" ∧
      ¬ ∃ t rel'', translateBranch labelEnv noFunctions {relocs := [functionBranch]} 0 .BNE 0 =
        .ok (BranchType.hit .BNE functionBranch.target, t, rel'') := by
  refine ⟨rfl, ?_⟩
  rintro ⟨t, rel'', h⟩
  cases h

end RiscvSbt.Relocation
