import RiscvSbt.Block.Flow

/-! When the blocks of a function are well formed.

They are, unless the label of a pending relocation splits the block of an instruction that
has left for an untracked block: the builder then goes on in the lower part, and the
untracked block stays open. -/
namespace RiscvSbt.Block
open Library State

/-- The block ends with a terminator, and has no other. -/
def Terminated (t : State) (b : Nat) : Prop :=
  ∃ l i, (t.bbs b).insts = l ++ [i] ∧ Straight l ∧ i.kind.isTerminator = true

/-- The empty last block that no instruction of the function branches to. -/
structure Spare (n : Nat) (t : State) (b : Nat) : Prop where
  last : ∃ k, t.findBB k = some b ∧ ∀ c, HasBB t c → c ≤ k
  empty : (t.bbs b).insts = []
  unused : ∀ b', n ≤ b' → b' < t.nextBlock → ∀ i ∈ (t.bbs b').insts, b ∉ i.kind.succs

/-- Where the next instruction starts: its first one, or the start of its block. -/
def Starts (t : State) (a : Nat) (l : List Instr) : Prop :=
  (∃ b, t.findBB a = some b ∧ l = (t.bbs b).insts) ∨ ∃ i r, l = i :: r ∧ t.marks i.id = some a

/-- The blocks created from `n` on are those of the function with the instructions from
`st` up to `e`. -/
structure WellFormed (body : Nat → Inst) (n st e : Nat) (t : State) : Prop where
  terminated : ∀ b, n ≤ b → b < t.nextBlock → Terminated t b ∨ Spare n t b
  through : ∀ a, st ≤ a → a < e → a % 4 = 0 → (body a).act.falls = true →
    ∃ k b l i r, t.findBB k = some b ∧ (t.bbs b).insts = l ++ i :: r ∧ t.marks i.id = some a ∧
      Leads t a false (Starts t (a + 4)) False (i :: r) [a]

variable {opts : Options} {body : Nat → Inst} {n st : Nat} {bad : Nat → Prop} {s t : State}
  {a main k : Nat} {l : List Instr}

theorem Code.terminates {c e : Nat} (h : Code opts body t c l e) (hl : (terminator l).isSome) :
    ∃ m i, l = m ++ [i] ∧ Straight m ∧ i.kind.isTerminator = true := by
  rcases h.straight_or with hs | ⟨m, i, heq, hm, hi, -⟩
  · rw [hs.terminator] at hl
    exact nomatch hl
  · exact ⟨m, i, heq, hm, hi⟩

theorem Quiet.terminates {m : List Instr} {i : Instr} {b : Nat} (heq : (t.bbs b).insts = m ++ [i])
    (hm : Quiet t m) (hk : (∃ z, i.kind = .br z) ∨ ∃ z w, i.kind = .condBr .helper z w) :
    Terminated t b := by
  refine ⟨m, i, heq, hm.straight, ?_⟩
  rcases hk with ⟨z, hk⟩ | ⟨z, w, hk⟩ <;> rw [hk] <;> rfl

/-! ### Falling through -/

/-- From wherever the code of an instruction is reached, its start is. -/
theorem At.starts {e c : Nat} (h : At opts body st e t c l) :
    Leads t a false (Starts t c) False l [] := by
  obtain ⟨-, hterm, e', hc⟩ := h
  induction hc with
  | stop a => exact nomatch hterm
  | glue mark kind find => exact .unmarked mark (.br kind (.here (.inl ⟨_, find, rfl⟩)))
  | skip kind mark _ ih => exact .unmarked mark (.op kind (ih (terminator_cons kind hterm)))
  | visit kind mark => exact .here (.inr ⟨_, _, rfl, mark⟩)
  | enter kind mark => exact .here (.inr ⟨_, _, rfl, mark⟩)
  | term mark => exact .here (.inr ⟨_, _, rfl, mark⟩)

theorem Leads.never {P : List Instr → Prop} {stop : Prop} {taken : Bool} {tr : List Nat}
    (h : Leads t a taken P stop l tr) (hs : ¬ stop) : Leads t a taken P False l tr := by
  induction h with
  | here h => exact .here h
  | op kind _ ih => exact .op kind ih
  | br kind _ ih => exact .br kind ih
  | guest kind _ ih => exact .guest kind ih
  | helper kind _ _ yes no => exact .helper kind yes no
  | stop kind h => exact absurd h hs

theorem Done.through {e : Nat} (hd : Done opts body st e t) (hf : (body a).act.falls = true)
    (hat : At opts body st e t a l) : Leads t a false (Starts t (a + 4)) False l [a] := by
  have hs := Act.succ_falls hf a
  have hl : Leads t a false _ _ l [a] := hd.leads hat
  have hn : ¬ (body a).act.succ? a false = none := by
    rw [hs]
    exact nofun
  refine (hl.never hn).trans id ?_
  rintro m ⟨c, hc, hat'⟩
  rw [hs] at hc
  obtain rfl := Option.some.inj hc
  exact hat'.starts

/-! ### Successors -/

/-- No block at or behind the end of the function is branched to. -/
theorem Code.inside {c e e' : Nat} (hin : Inside body st e) (h : Code opts body t c l e')
    (hst : st ≤ c) (hlt : c < e) (hmod : c % 4 = 0) :
    ∀ i ∈ l, ∀ z ∈ i.kind.succs, (∃ d, t.findBB d = some z ∧ d < e) ∨ ∃ d, z ∈ t.ubbs d := by
  have hterm : ∀ {c : Nat} {i : Instr}, st ≤ c → c < e → c % 4 = 0 → Term opts body t c i.kind →
      ∀ z ∈ i.kind.succs, (∃ d, t.findBB d = some z ∧ d < e) ∨ ∃ d, z ∈ t.ubbs d := by
    intro c i hst hlt hmod ht z hz
    generalize i.kind = kind at ht hz
    cases ht with
    | @branch tgt bt bn act target next =>
      rcases List.mem_pair.mp hz with rfl | rfl
      · exact .inl ⟨tgt, target, (hin c true tgt hst hlt hmod (by rw [act]; rfl)).2.1⟩
      · exact .inl ⟨c + 4, next, (hin c false (c + 4) hst hlt hmod (by rw [act]; rfl)).2.1⟩
    | @jump tgt bt act target =>
      rw [List.mem_singleton.mp hz]
      exact .inl ⟨tgt, target, (hin c true tgt hst hlt hmod (by rw [act]; rfl)).2.1⟩
    | ret act => exact nomatch hz
    | ijump act => exact nomatch hz
    | leave act hu hv =>
      rcases List.mem_pair.mp hz with rfl | rfl
      · exact .inr ⟨c, hu⟩
      · exact .inr ⟨c, hv⟩
  have hop : ∀ {i : Instr} {l : List Instr}, i.kind = .op →
      (∀ j ∈ l, ∀ z ∈ j.kind.succs, (∃ d, t.findBB d = some z ∧ d < e) ∨ ∃ d, z ∈ t.ubbs d) →
      ∀ j ∈ i :: l, ∀ z ∈ j.kind.succs, (∃ d, t.findBB d = some z ∧ d < e) ∨ ∃ d, z ∈ t.ubbs d := by
    intro i l hk hl j hj z hz
    rcases List.mem_cons.mp hj with rfl | hj
    · rw [hk] at hz
      exact nomatch hz
    · exact hl j hj z hz
  induction h with
  | stop a => exact fun _ hi => nomatch hi
  | @glue c i b mark kind find =>
    intro j hj z hz
    rw [List.mem_singleton.mp hj, kind] at hz
    rw [List.mem_singleton.mp hz]
    exact .inl ⟨c, find, hlt⟩
  | skip kind mark _ ih => exact hop kind (ih hst hlt hmod)
  | @visit c e' i l kind mark act _ ih =>
    have hnext := hin c false (c + 4) hst hlt hmod (Act.succ_falls (Act.falls_of_stays act) c)
    exact hop kind (ih hnext.1 hnext.2.1 hnext.2.2)
  | @enter c i l kind mark rest =>
    refine hop kind ?_
    obtain ⟨m, j, rfl, hm, -, ht⟩ := rest.terminator
    intro x hx z hz
    rcases List.mem_append.mp hx with hx | hx
    · rw [(hm x hx).1] at hz
      exact nomatch hz
    · rw [List.mem_singleton.mp hx] at hz
      exact hterm hst hlt hmod ht z hz
  | term mark term =>
    intro j hj z hz
    rw [List.mem_singleton.mp hj] at hz
    exact hterm hst hlt hmod term z hz

theorem Act.succ_target {act : Act} {tgt : Nat} (h : act.target? = some tgt) (a : Nat) :
    act.succ? a true = some tgt := by
  cases act with
  | branch _ | jump _ => exact h
  | _ => exact nomatch h

/-! ### The blocks at the end -/

section Finished
variable (h : Inv opts body n st bad t (a + 4) main k) (hst : st ≤ a)
  (hin : Inside body st (a + 4)) (hkeys : ∀ c, HasBB t c → c ≤ a + 4)
  (hd : Done opts body st (a + 4) t)
include h hst hin hd

/-- No instruction branches to a block at the end of the function. -/
theorem Inv.unused {b : Nat} (hb : t.findBB (a + 4) = some b) {b' : Nat} (hn : n ≤ b')
    (hlt : b' < t.nextBlock) :
    ∀ i ∈ (t.bbs b').insts, b ∉ i.kind.succs := by
  have hne : ∀ z, ((∃ d, t.findBB d = some z ∧ d < a + 4) ∨ ∃ d, z ∈ t.ubbs d) → z ≠ b := by
    rintro z (⟨d, hz, hd⟩ | ⟨d, hz⟩)
    · exact h.heap.find_ne hz hb (Nat.ne_of_lt hd)
    · exact fun e => h.heap.find_ubbs hb (e ▸ hz)
  rcases h.heap.owned b' hn hlt with ⟨c, hc⟩ | ⟨d, hy⟩
  · intro i hi hz
    obtain ⟨hc₁, hc₂⟩ := h.bounds c ⟨b', hc⟩
    by_cases hce : c < a + 4
    · obtain ⟨-, e', hcode, -⟩ := hd.block c b' hc hce
      exact hne b (hcode.inside hin hc₁ hce hc₂ i hi b hz) rfl
    · rcases h.gap c ⟨b', hc⟩ with hck | hck
      · rcases h.start with hk | ⟨-, hk⟩ <;> omega
      · by_cases hck' : c = k
        · rcases h.start with hk | ⟨-, hk⟩ <;> omega
        · rcases (h.rest c b' hc hck').2 with hs | ⟨-, hnil⟩
          · obtain ⟨e', -, h₁, h₂, -⟩ := hs.code
            omega
          · rw [hnil] at hi
            exact nomatch hi
  · obtain ⟨h₁, h₂, h₃, hl⟩ := h.helpers d b' hy
    obtain ⟨x, hr, hc⟩ := hd.exits d h₁ h₂ h₃ hl
    have hquiet : ∀ {m : List Instr} {j : Instr}, (t.bbs b').insts = m ++ [j] → Quiet t m →
        (∀ z ∈ j.kind.succs, z ≠ b) → ∀ i ∈ (t.bbs b').insts, b ∉ i.kind.succs := by
      intro m j heq hm hj i hi hz
      rw [heq] at hi
      rcases List.mem_append.mp hi with hi | hi
      · rw [(hm i hi).1] at hz
        exact nomatch hz
      · rw [List.mem_singleton.mp hi] at hz
        exact hj b hz rfl
    by_cases hyx : b' = x
    · obtain ⟨m, j, b₁, heq, hm, -, hk, hb₁⟩ := hc
      refine hquiet (hyx ▸ heq) hm fun z hz => hne z (.inl ⟨d + 4, ?_, ?_⟩)
      · rw [hk] at hz
        rw [List.mem_singleton.mp hz]
        exact hb₁
      · exact (hin d false _ h₁ h₂ h₃ (Act.succ_falls (Act.falls_of_leaves hl) d)).2.1
    · obtain ⟨m, j, heq, hm, -, -, hz⟩ := hr.forward b' hy hyx
      exact hquiet heq hm fun z hz' => hne z (.inr ⟨d, (hz z hz').1⟩)

include hkeys

theorem Inv.blocks_end {b : Nat} (hn : n ≤ b) (hlt : b < t.nextBlock) :
    Terminated t b ∨ Spare n t b := by
  rcases h.heap.owned b hn hlt with ⟨c, hc⟩ | ⟨d, hy⟩
  · by_cases hce : c < a + 4
    · obtain ⟨hterm, e', hcode, -⟩ := hd.block c b hc hce
      exact .inl (hcode.terminates hterm)
    · obtain rfl : c = a + 4 := le_antisymm (hkeys c ⟨b, hc⟩) (by omega)
      have hck : a + 4 ≠ k := by
        rcases h.start with hk | ⟨-, hk⟩ <;> omega
      have hnil : (t.bbs b).insts = [] := by
        rcases (h.rest _ b hc hck).2 with hs | ⟨-, hnil⟩
        · obtain ⟨e', -, h₁, h₂, -⟩ := hs.code
          omega
        · exact hnil
      exact .inr ⟨⟨a + 4, hc, hkeys⟩, hnil, fun b' h₁ h₂ => h.unused hst hin hd hc h₁ h₂⟩
  · obtain ⟨h₁, h₂, h₃, hl⟩ := h.helpers d b hy
    obtain ⟨x, hr, hc⟩ := hd.exits d h₁ h₂ h₃ hl
    by_cases hyx : b = x
    · obtain ⟨m, j, b₁, heq, hm, -, hk, -⟩ := hc
      exact .inl (hm.terminates (hyx ▸ heq) (.inl ⟨b₁, hk⟩))
    · obtain ⟨m, j, heq, hm, -, hk, -⟩ := hr.forward b hy hyx
      exact .inl (hm.terminates heq hk)

/-- **Well formed.** -/
theorem Inv.wellFormed : WellFormed body n st (a + 4) t := by
  refine ⟨fun b hn hlt => h.blocks_end hst hin hkeys hd hn hlt, fun c hst' hlt hmod hf => ?_⟩
  have hcov := h.covered
  obtain ⟨k', b, -, hb, hle, hmax⟩ := Mid.getBackBB_spec hcov.entry hst'
  obtain ⟨hterm, e', hcode, -⟩ := hd.block k' b hb (by omega)
  -- The block of `c` has it among its marks.
  have hce : c < e' := by
    obtain ⟨i, hi⟩ := Option.isSome_iff_exists.mp (hcov.holds hlt hmod hb hle hmax)
    obtain ⟨l, e'', hpre, -, hrec, -⟩ := hcov.block k' b hb
    obtain ⟨x, hx, rfl, hm⟩ := (hrec c i).mp hi
    exact (hcode.marked.mp ⟨x, hpre.subset hx, hm⟩).2.1
  obtain ⟨top, i, bottom, heq, hi, -, -, hc⟩ :=
    hcode.cut hle hce (hmod.trans (h.bounds k' ⟨b, hb⟩).2.symm)
  refine ⟨k', b, top, i, bottom, hb, heq, hi, hd.through hf ⟨⟨hst', hlt, hmod⟩, ?_, e', hc⟩⟩
  rw [heq, terminator_append_cons] at hterm
  exact hterm

end Finished

/-- An untracked block that was left open is not terminated. -/
theorem Inv.not_wellFormed {e : Nat} (h : Inv opts body n st bad t (a + 4) main k) {c : Nat}
    (hin : Inside body st (a + 4)) (hst : st ≤ c) (hlt : c < a + 4) (hmod : c % 4 = 0)
    (hl : (body c).act.leaves opts = true) (hbad : bad c) : ¬ WellFormed body n st e t := by
  intro hw
  have hmod' := h.aligned
  rcases h.exits c hst hlt hmod hl with ⟨x, hr, -, hopen⟩ | ⟨heq, -⟩
  · obtain ⟨hn, hxlt, -⟩ := h.heap.helper c x hr.exit
    rcases hw.terminated x hn hxlt with ⟨m, i, heq, -, hi⟩ | ⟨⟨k', hk', -⟩, -⟩
    · have hq := (hopen hbad).1 i (by rw [heq]; simp)
      rw [hq.1] at hi
      exact nomatch hi
    · exact h.heap.find_ubbs hk' hr.exit
  · obtain rfl : c = a := by omega
    have hf := Act.falls_of_leaves hl
    rw [hin.last hst hmod] at hf
    exact nomatch hf

/-- **When blocks are well formed.** Of a function whose targets are inside and whose last
instruction does not fall through they are just if no label stands on an instruction that
goes on in untracked blocks, except where a block starts anyway. -/
theorem blocks_wellFormed (opts : Options) (body : Nat → Inst) (s : State) (f : FnId)
    (st prologue count : Nat) (t : State) (hst : st % 4 = 0)
    (htgt : ∀ a tgt, st ≤ a → a < st + 4 * count + 4 → a % 4 = 0 →
      (body a).act.target? = some tgt → st ≤ tgt ∧ tgt < st + 4 * count + 4)
    (hlast : (body (st + 4 * count)).act.falls = false)
    (hrun : ((s.newFunction f).start st prologue).translateInstrs opts body
    (count + 1) st = .ok t) :
    WellFormed body s.nextBlock st (st + 4 * count + 4) t ↔
      ∀ a, st ≤ a → a < st + 4 * count + 4 → a % 4 = 0 → (body a).act.leaves opts = true →
        s.pending.get? a ≠ none → Heads opts body st a := by
  have hstart : Reach opts body st ((s.newFunction f).start st prologue) st _ := .start
  obtain ⟨main, k, hinv, ha⟩ := (hstart.translateInstrs _ hrun).inv hst
  have hin : Inside body st (st + 4 * count + 4) := .of_targets (by omega) htgt hlast
  have hle : st ≤ st + 4 * count := Nat.le_add_right _ _
  constructor
  · intro hw c h₁ h₂ h₃ hl hlabel
    by_contra hn
    exact hinv.not_wellFormed hin h₁ h₂ h₃ hl ⟨hlabel, hn⟩ hw
  · intro hheads
    have hd : Done opts body st (st + 4 * count + 4) t :=
      Inv.done hinv hle hin fun c h₁ h₂ h₃ hl hopen => hopen.2 (hheads c h₁ h₂ h₃ hl hopen.1)
    refine Inv.wellFormed hinv hle hin (fun c hc => ?_) hd
    by_contra hlt
    obtain ⟨c', h₁, h₂, h₃, htg⟩ := (ha.keys c (by omega)).mp hc
    have := (hin c' true c h₁ h₂ h₃ (Act.succ_target htg c')).2.1
    omega

/-- An indirect call between a plain instruction and a return. -/
def tableBody : Nat → Inst
  | 8 => .ret 0
  | 4 => ⟨0, .icall, nofun⟩
  | _ => .straight 1

/-- A word of data waits for the label at an address. -/
def tableState (label : Nat) : State :=
  {emptyState with
    pending := Map.empty.upsert label ⟨"label", [("data", 0)]⟩
    sections := fun _ => [.word 0]}

theorem tableBody_leaves {a : Nat} (h : (tableBody a).act.leaves {} = true) : a = 4 := by
  unfold tableBody at h
  split at h
  · cases h
  · rfl
  · cases h

theorem tableBody_target {a tgt : Nat} : (tableBody a).act.target? ≠ some tgt := by
  unfold tableBody
  split <;> exact nofun

theorem tableState_runs (label : Nat) (h : label = 4 ∨ label = 8) :
    ∃ t, (((tableState label).newFunction 0).start 0 2).translateInstrs {} tableBody 3 0 =
    .ok t := by
  have hok : (((((tableState label).newFunction 0).start 0 2).translateInstrs {} tableBody 3
      0).toOption).isSome = true := by
    rcases h with rfl | rfl <;> decide
  cases hrun : ((tableState label).newFunction 0 |>.start 0 2).translateInstrs {} tableBody 3 0 with
  | ok t => exact ⟨t, rfl⟩
  | error e => rw [hrun] at hok; exact nomatch hok

/-- A label on the indirect call leaves its last untracked block open. -/
theorem label_in_block : ∃ t,
    (((tableState 4).newFunction 0).start 0 2).translateInstrs {} tableBody 3 0 = .ok t ∧
      ¬ WellFormed tableBody 0 0 12 t := by
  obtain ⟨t, ht⟩ := tableState_runs 4 (.inl rfl)
  have hstart : Reach {} tableBody 0 (((tableState 4).newFunction 0).start 0 2) 0 _ := .start
  obtain ⟨main, k, hinv, -⟩ := (hstart.translateInstrs _ ht).inv rfl
  refine ⟨t, ht, Inv.not_wellFormed (a := 8) (c := 4) hinv ?_ (by decide) (by decide) rfl rfl ?_⟩
  · exact .of_targets rfl (fun c tgt _ _ _ h => absurd h tableBody_target) rfl
  · refine ⟨by decide, ?_⟩
    rintro (h | ⟨-, h | ⟨c, -, -, -, h⟩⟩)
    · exact nomatch h
    · exact nomatch h
    · exact tableBody_target h

/-- A label on the return does no harm. -/
theorem label_at_return : ∃ t,
    (((tableState 8).newFunction 0).start 0 2).translateInstrs {} tableBody 3 0 = .ok t ∧
      WellFormed tableBody 0 0 12 t := by
  obtain ⟨t, ht⟩ := tableState_runs 8 (.inr rfl)
  refine ⟨t, ht, (blocks_wellFormed {} tableBody (tableState 8) 0 0 2 2 t rfl
    (fun _ _ _ _ _ h => absurd h tableBody_target) rfl ht).mpr fun a _ _ _ hl hlabel => ?_⟩
  rw [tableBody_leaves hl] at hlabel
  exact absurd (by decide) hlabel

end RiscvSbt.Block
