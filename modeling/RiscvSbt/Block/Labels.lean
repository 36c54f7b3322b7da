import RiscvSbt.Block.Upkeep

/-! The words of labels.

`Labelled` is what a function has done for labels so far: none of the instructions translated
has a label that still waits, the words of such a label hold the address of a block that
starts there, and no other word has changed. -/
namespace RiscvSbt.Block
open Library State

variable {opts : Options} {body : Nat → Inst} {n st : Nat} {L : List Nat} {s₁ s t : State}
  {addr k b : Nat}

theorem patch_ok {secs secs' : String → List Constant} {w : String × Nat}
    (h : patch b secs w = .ok secs') : w.2 % 4 = 0 ∧ w.2 / 4 < (secs w.1).length ∧
      secs' = Function.update secs w.1 ((secs w.1).set (w.2 / 4) (.blockAddress b)) := by
  unfold patch at h
  split at h
  · cases h
  next hmod =>
    split at h
    · cases h
    next hlen => exact ⟨not_not.mp hmod, not_le.mp hlen, (Except.ok.inj h).symm⟩

/-- **What serving a label does to the sections.** -/
theorem patches_spec {slots : List (String × Nat)} {secs secs' : String → List Constant}
    (h : slots.foldlM (patch b) secs = .ok secs') :
    (∀ w ∈ slots, w.2 % 4 = 0) ∧ (∀ name, (secs' name).length = (secs name).length) ∧
      ∀ name i, (secs' name)[i]? = if ∃ w ∈ slots, w.1 = name ∧ w.2 / 4 = i
        then some (.blockAddress b) else (secs name)[i]? := by
  induction slots generalizing secs with
  | nil =>
    obtain rfl := Except.ok.inj h
    simp
  | cons w slots ih =>
    rw [List.foldlM_cons] at h
    obtain ⟨secs₁, hw, h⟩ := bind_ok h
    obtain ⟨hmod, hlt, rfl⟩ := patch_ok hw
    obtain ⟨hmods, hlen, hget⟩ := ih h
    refine ⟨fun x hx => ?_, fun name => ?_, fun name i => ?_⟩
    · rcases List.mem_cons.mp hx with rfl | hx
      · exact hmod
      · exact hmods x hx
    · rw [hlen, Function.update_apply]
      split
      next heq => rw [heq, List.length_set]
      next => rfl
    · rw [hget, Function.update_apply]
      by_cases hslots : ∃ x ∈ slots, x.1 = name ∧ x.2 / 4 = i
      · obtain ⟨x, hx, heq⟩ := hslots
        rw [if_pos ⟨x, hx, heq⟩, if_pos ⟨x, List.mem_cons_of_mem _ hx, heq⟩]
      · rw [if_neg hslots]
        by_cases hname : name = w.1
        · subst hname
          rw [if_pos rfl, List.getElem?_set]
          by_cases hi : w.2 / 4 = i
          · subst hi
            rw [if_pos rfl, if_pos hlt, if_pos ⟨w, List.mem_cons_self, rfl, rfl⟩]
          · rw [if_neg hi, if_neg]
            rintro ⟨x, hx, h₁, h₂⟩
            rcases List.mem_cons.mp hx with rfl | hx
            · exact hi h₂
            · exact hslots ⟨x, hx, h₁, h₂⟩
        · rw [if_neg hname, if_neg]
          rintro ⟨x, hx, h₁, h₂⟩
          rcases List.mem_cons.mp hx with rfl | hx
          · exact hname h₁.symm
          · exact hslots ⟨x, hx, h₁, h₂⟩

/-- Words that are aligned and inside of their sections can be served. -/
theorem patches_ok {slots : List (String × Nat)} {secs : String → List Constant}
    (h : ∀ w ∈ slots, w.2 % 4 = 0 ∧ w.2 / 4 < (secs w.1).length) :
    ∃ secs', slots.foldlM (patch b) secs = .ok secs' := by
  induction slots generalizing secs with
  | nil => exact ⟨secs, rfl⟩
  | cons w slots ih =>
    obtain ⟨hmod, hlt⟩ := h w List.mem_cons_self
    have hw : patch b secs w =
        .ok (Function.update secs w.1 ((secs w.1).set (w.2 / 4) (.blockAddress b))) := by
      unfold patch
      rw [if_neg (not_not.mpr hmod), if_neg (Nat.not_le.mpr hlt)]
      rfl
    rw [List.foldlM_cons, hw]
    refine ih fun x hx => ⟨(h x (List.mem_cons_of_mem _ hx)).1, ?_⟩
    rw [Function.update_apply]
    split
    next heq =>
      rw [List.length_set, ← heq]
      exact (h x (List.mem_cons_of_mem _ hx)).2
    next => exact (h x (List.mem_cons_of_mem _ hx)).2

/-- The loop that starts at `st` is past `k`. -/
def Past (st addr k : Nat) : Prop := st ≤ k ∧ k < addr ∧ k % 4 = st % 4

instance : Decidable (Past st addr k) := by
  unfold Past
  infer_instance

theorem Past.next (hst : st ≤ addr) (hmod : addr % 4 = st % 4) :
    Past st (addr + 4) k ↔ Past st addr k ∨ k = addr := by
  unfold Past
  omega

structure Labelled (n st : Nat) (s₁ : State) (addr : Nat) (s : State) : Prop where
  pending : ∀ k, s.pending.get? k = if Past st addr k then none else s₁.pending.get? k
  length : ∀ name, (s.sections name).length = (s₁.sections name).length
  kept : ∀ name i, (∀ k prel, Past st addr k → s₁.pending.get? k = some prel →
    ∀ w ∈ prel.secs, ¬ (w.1 = name ∧ w.2 / 4 = i)) → (s.sections name)[i]? = (s₁.sections name)[i]?
  /-- If a word waits for two labels, it has the block of one of them. -/
  held : ∀ k prel, Past st addr k → s₁.pending.get? k = some prel → ∀ w ∈ prel.secs,
    w.2 % 4 = 0 ∧ ∃ k' prel' b, Past st addr k' ∧ s₁.pending.get? k' = some prel' ∧
      w ∈ prel'.secs ∧ b ∈ s.func.indBBs ∧ (s.bbs b).addr = some k' ∧
      (s.sections w.1)[w.2 / 4]? = some (.blockAddress b)
  served : ∀ k, Past st addr k → s₁.pending.get? k ≠ none →
    ∃ b ∈ s.func.indBBs, (s.bbs b).addr = some k
  blocks : ∀ b ∈ s.func.indBBs, n ≤ b ∧ b < s.nextBlock ∧
    ∃ k, Past st addr k ∧ s₁.pending.get? k ≠ none ∧ (s.bbs b).addr = some k

namespace Labelled

theorem start (h : s.func.indBBs = []) : Labelled n st s st s := by
  have hnone : ∀ {k}, ¬ Past st st k := fun hp => by
    have := hp.1
    have := hp.2.1
    omega
  refine ⟨fun k => (if_neg hnone).symm, fun _ => rfl, fun _ _ _ => rfl,
    fun _ _ hp => absurd hp hnone,
    fun _ hp => absurd hp hnone, fun b hb => ?_⟩
  rw [h] at hb
  cases hb

/-- Blocks of earlier labels keep their addresses. -/
theorem addr_kept (h : Labelled n st s₁ addr s) (hl : Lasts s t) (hb : b ∈ s.func.indBBs) :
    (t.bbs b).addr = (s.bbs b).addr :=
  congrArg (fun x : FnId × Option Nat × Bool => x.2.1) (hl.tag b (h.blocks b hb).2.1)

theorem blocks_kept (h : Labelled n st s₁ addr s) (hl : Lasts s t)
    (hold : ∀ k, Past st addr k → Past st (addr + 4) k) (hb : b ∈ s.func.indBBs) :
    n ≤ b ∧ b < t.nextBlock ∧
      ∃ k, Past st (addr + 4) k ∧ s₁.pending.get? k ≠ none ∧ (t.bbs b).addr = some k := by
  obtain ⟨hn, hlt, k, hp, hk, ha⟩ := h.blocks b hb
  exact ⟨hn, lt_of_lt_of_le hlt hl.nextBlock, k, hold k hp, hk, (h.addr_kept hl hb).trans ha⟩

theorem served_kept (h : Labelled n st s₁ addr s) (hl : Lasts s t)
    (hkeep : ∀ b ∈ s.func.indBBs, b ∈ t.func.indBBs) (hp : Past st addr k)
    (hk : s₁.pending.get? k ≠ none) : ∃ b ∈ t.func.indBBs, (t.bbs b).addr = some k := by
  obtain ⟨b, hb, ha⟩ := h.served k hp hk
  exact ⟨b, hkeep b hb, (h.addr_kept hl hb).trans ha⟩

/-- A word that this turn leaves alone. -/
theorem held_kept (h : Labelled n st s₁ addr s) (hl : Lasts s t)
    (hold : ∀ k, Past st addr k → Past st (addr + 4) k)
    (hkeep : ∀ b ∈ s.func.indBBs, b ∈ t.func.indBBs) {prel : PendingReloc} (hp : Past st addr k)
    (hk : s₁.pending.get? k = some prel) {w : String × Nat} (hw : w ∈ prel.secs)
    (hsame : w.2 % 4 = 0 → (t.sections w.1)[w.2 / 4]? = (s.sections w.1)[w.2 / 4]?) :
    w.2 % 4 = 0 ∧ ∃ k' prel' b, Past st (addr + 4) k' ∧ s₁.pending.get? k' = some prel' ∧
      w ∈ prel'.secs ∧ b ∈ t.func.indBBs ∧ (t.bbs b).addr = some k' ∧
      (t.sections w.1)[w.2 / 4]? = some (.blockAddress b) := by
  obtain ⟨hmod, k', prel', b, hp', hk', hw', hb, ha, hword⟩ := h.held k prel hp hk w hw
  exact ⟨hmod, k', prel', b, hold k' hp', hk', hw', hkeep b hb, (h.addr_kept hl hb).trans ha,
    (hsame hmod).trans hword⟩

/-- No label waits at `addr`. -/
theorem idle (h : Labelled n st s₁ addr s) (hst : st ≤ addr) (hmod : addr % 4 = st % 4)
    (hl : Lasts s t) (absent : s₁.pending.get? addr = none) (pending : t.pending = s.pending)
    (sections : t.sections = s.sections) (indBBs : t.func.indBBs = s.func.indBBs) :
    Labelled n st s₁ (addr + 4) t := by
  have hold : ∀ k, Past st addr k → Past st (addr + 4) k := fun k hp =>
    (Past.next hst hmod).mpr (.inl hp)
  -- A label that was served by now was served before.
  have hback : ∀ {k}, Past st (addr + 4) k → s₁.pending.get? k ≠ none → Past st addr k :=
    fun hp hk => ((Past.next hst hmod).mp hp).resolve_right fun hka => hk (hka ▸ absent)
  have hkeep : ∀ b ∈ s.func.indBBs, b ∈ t.func.indBBs := fun b hb => indBBs ▸ hb
  refine ⟨fun k => ?_, fun name => ?_, fun name i hk => ?_, fun k prel hp hk w hw => ?_,
    fun k hp hk => ?_, fun b hb => ?_⟩
  · rw [pending, h.pending]
    by_cases hp : Past st addr k
    · rw [if_pos hp, if_pos (hold k hp)]
    · rw [if_neg hp]
      split
      next hp' => exact not_not.mp fun hk => hp (hback hp' hk)
      next => rfl
  · rw [sections]
    exact h.length name
  · rw [sections]
    exact h.kept name i fun k prel hp => hk k prel (hold k hp)
  · have hp := hback hp (by rw [hk]; exact Option.some_ne_none prel)
    exact h.held_kept hl hold hkeep hp hk hw fun _ => by rw [sections]
  · exact h.served_kept hl hkeep (hback hp hk) hk
  · rw [indBBs] at hb
    exact h.blocks_kept hl hold hb

/-- The label at `addr` gets the block `b`. -/
theorem serve (h : Labelled n st s₁ addr s) (hst : st ≤ addr) (hmod : addr % 4 = st % 4)
    (hl : Lasts s t) {prel : PendingReloc} (waiting : s₁.pending.get? addr = some prel)
    (own : n ≤ b ∧ b < t.nextBlock) (starts : (t.bbs b).addr = some addr)
    (sections : prel.secs.foldlM (patch b) s.sections = .ok t.sections)
    (pending : t.pending = s.pending.remove addr) (indBBs : t.func.indBBs = s.func.indBBs ++ [b]) :
    Labelled n st s₁ (addr + 4) t := by
  obtain ⟨hmods, hlen, hget⟩ := patches_spec sections
  have hold : ∀ k, Past st addr k → Past st (addr + 4) k := fun k hp =>
    (Past.next hst hmod).mpr (.inl hp)
  have hpass : Past st (addr + 4) addr := (Past.next hst hmod).mpr (.inr rfl)
  have hnew : b ∈ t.func.indBBs := by
    rw [indBBs]
    exact List.mem_append_right _ (List.mem_singleton.mpr rfl)
  have hkeep : ∀ x ∈ s.func.indBBs, x ∈ t.func.indBBs := fun x hx => by
    rw [indBBs]
    exact List.mem_append_left _ hx
  refine ⟨fun k => ?_, fun name => ?_, fun name i hk => ?_, fun k prel' hp hk w hw => ?_,
    fun k hp hk => ?_, fun x hx => ?_⟩
  · rw [pending, Map.get?_remove]
    by_cases hka : k = addr
    · rw [hka, if_pos rfl, if_pos hpass]
    · rw [if_neg hka, h.pending]
      by_cases hp : Past st addr k
      · rw [if_pos hp, if_pos (hold k hp)]
      · rw [if_neg hp, if_neg fun hp' => ((Past.next hst hmod).mp hp').elim hp hka]
  · rw [hlen, h.length]
  · rw [hget, if_neg]
    · exact h.kept name i fun k prel' hp => hk k prel' (hold k hp)
    · rintro ⟨w, hw, heq⟩
      exact hk addr prel hpass waiting w hw heq
  · by_cases hin : w ∈ prel.secs
    · exact ⟨hmods w hin, addr, prel, b, hpass, waiting, hin, hnew, starts,
        by rw [hget, if_pos ⟨w, hin, rfl, rfl⟩]⟩
    · rcases (Past.next hst hmod).mp hp with hp | rfl
      · refine h.held_kept hl hold hkeep hp hk hw fun hw₀ => ?_
        rw [hget, if_neg]
        rintro ⟨x, hx, hname, hdiv⟩
        -- Aligned words of one index are one word.
        have hx₀ := hmods x hx
        have heq : x = w := Prod.ext hname (by omega)
        exact hin (heq ▸ hx)
      · obtain rfl := Option.some.inj (waiting.symm.trans hk)
        exact absurd hw hin
  · rcases (Past.next hst hmod).mp hp with hp | rfl
    · exact h.served_kept hl hkeep hp hk
    · exact ⟨b, hnew, starts⟩
  · rw [indBBs] at hx
    rcases List.mem_append.mp hx with hx | hx
    · exact h.blocks_kept hl hold hx
    · obtain rfl := List.mem_singleton.mp hx
      exact ⟨own.1, own.2, addr, hpass, by rw [waiting]; exact Option.some_ne_none prel, starts⟩

/-- **A turn at `addr`.** -/
theorem turn (h : Labelled n st s₁ addr s) (hst : st ≤ addr) (hmod : addr % 4 = st % 4)
    (hl : Lasts s t) (hs : Serves n addr s t) : Labelled n st s₁ (addr + 4) t := by
  have hhere : s.pending.get? addr = s₁.pending.get? addr := by
    rw [h.pending, if_neg fun hp => Nat.lt_irrefl addr hp.2.1]
  cases hs with
  | idle absent pending sections indBBs =>
    exact h.idle hst hmod hl (hhere ▸ absent) pending sections indBBs
  | serve waiting own starts sections pending indBBs =>
    exact h.serve hst hmod hl (hhere ▸ waiting) own starts sections pending indBBs

end Labelled

theorem Reach.mod (h : Reach opts body st s₁ addr s) : addr % 4 = st % 4 := by
  induction h with
  | start => rfl
  | turn _ _ ih => omega

/-- **The labels of every state of the loop.** -/
theorem Reach.labelled (hb : Base n st L s₁) (h : Reach opts body st s₁ addr s) :
    Labelled n st s₁ addr s := by
  induction h with
  | start => exact .start hb.indBBs
  | turn before run ih =>
    obtain ⟨-, hl, hs⟩ := (before.own hb).translateInstr before.le run
    exact ih.turn before.le before.mod hl hs

end RiscvSbt.Block
