import RiscvSbt.Block.Labels

/-! The words of a jump table, from where they are registered on.

While the shadow image is built, `addPending` merges the words that wait for one label into one
entry of the table of pending relocations. `Patched` is what has become of the table and of the
sections once some labels have been passed. -/
namespace RiscvSbt.Block
open Library State

/-- A word of a section that is to hold the address of a label. -/
structure Slot where
  label : Nat
  sym : String
  sec : String
  offs : Nat
  deriving DecidableEq, Repr

namespace Slot

def prel (r : Slot) : PendingReloc := ⟨r.sym, [(r.sec, r.offs)]⟩

def word (r : Slot) : String × Nat := (r.sec, r.offs)

end Slot

/-- `ShadowImage::addPending`; `key` is the address of the symbol. -/
def addPending (pending : Map Nat PendingReloc) (key : Nat) (prel : PendingReloc) :
    Except String (Map Nat PendingReloc) :=
  match pending.get? key with
  | none => pure (pending.upsert key prel)
  | some old =>
    match prel.secs.getLast? with
    | none => throw "prel.secs.back()"
    | some sec =>
      if old.sym = prel.sym then pure (pending.upsert key {old with secs := old.secs ++ [sec]})
      else throw "it->second.sym.name == prel.sym.name"

/-- Words are registered one after the other. -/
def addSlots (pending : Map Nat PendingReloc) (slots : List Slot) :
    Except String (Map Nat PendingReloc) :=
  slots.foldlM (fun m r => addPending m r.label r.prel) pending

/-- The table has the words of each label. -/
structure Registered (slots : List Slot) (m : Map Nat PendingReloc) : Prop where
  present : ∀ r ∈ slots, m.get? r.label ≠ none
  entry : ∀ k prel, m.get? k = some prel → (∃ r ∈ slots, r.label = k) ∧
    (∀ w, w ∈ prel.secs ↔ ∃ r ∈ slots, r.label = k ∧ r.word = w) ∧
    ∀ r ∈ slots, r.label = k → r.sym = prel.sym

theorem Registered.add {slots : List Slot} {m : Map Nat PendingReloc} {r : Slot}
    (h : Registered slots m) (hr : ∀ x ∈ slots, x.label = r.label → x.sym = r.sym) :
    ∃ m', addPending m r.label r.prel = .ok m' ∧ Registered (slots ++ [r]) m' := by
  have hmem : ∀ {x}, x ∈ slots ++ [r] ↔ x ∈ slots ∨ x = r := by simp
  have hother : ∀ {k prel}, k ≠ r.label → m.get? k = some prel →
      (∃ x ∈ slots ++ [r], x.label = k) ∧
      (∀ w, w ∈ prel.secs ↔ ∃ x ∈ slots ++ [r], x.label = k ∧ x.word = w) ∧
      ∀ x ∈ slots ++ [r], x.label = k → x.sym = prel.sym := by
    intro k prel hk hget
    have hne : ∀ {x}, x.label = k → x ≠ r := fun hx hxr => hk (by rw [← hx, hxr])
    obtain ⟨⟨x, hx, hxk⟩, hwords, hsym⟩ := h.entry k prel hget
    refine ⟨⟨x, hmem.mpr (.inl hx), hxk⟩, fun w => ?_, fun x hx hxk => ?_⟩
    · rw [hwords]
      constructor
      · rintro ⟨x, hx, hxk, hw⟩
        exact ⟨x, hmem.mpr (.inl hx), hxk, hw⟩
      · rintro ⟨x, hx, hxk, hw⟩
        exact ⟨x, (hmem.mp hx).resolve_right (hne hxk), hxk, hw⟩
    · exact hsym x ((hmem.mp hx).resolve_right (hne hxk)) hxk
  have hpresent : ∀ val, ∀ x ∈ slots ++ [r], (m.upsert r.label val).get? x.label ≠ none := by
    intro val x hx
    rw [Map.get?_upsert]
    split
    · exact nofun
    next hne => exact h.present x ((hmem.mp hx).resolve_right fun hxr => hne (by rw [hxr]))
  unfold addPending
  cases hget : m.get? r.label with
  | none =>
    have hnew : ∀ x ∈ slots, x.label ≠ r.label := fun x hx heq => h.present x hx (heq ▸ hget)
    refine ⟨_, rfl, hpresent _, fun k prel hk => ?_⟩
    rw [Map.get?_upsert] at hk
    split at hk
    next heq =>
      obtain rfl := Option.some.inj hk
      refine ⟨⟨r, hmem.mpr (.inr rfl), heq.symm⟩, fun w => ?_, fun x hx hxk => ?_⟩
      · constructor
        · intro hw
          exact ⟨r, hmem.mpr (.inr rfl), heq.symm, (List.mem_singleton.mp hw).symm⟩
        · rintro ⟨x, hx, hxk, rfl⟩
          rw [(hmem.mp hx).resolve_left fun hx => hnew x hx (hxk.trans heq)]
          exact List.mem_singleton.mpr rfl
      · rw [(hmem.mp hx).resolve_left fun hx => hnew x hx (hxk.trans heq)]
        rfl
    next hne => exact hother hne hk
  | some old =>
    obtain ⟨⟨y, hy, hyk⟩, hwords, hsym⟩ := h.entry _ old hget
    have hold : old.sym = r.sym := (hsym y hy hyk).symm.trans (hr y hy hyk)
    refine ⟨m.upsert r.label {old with secs := old.secs ++ [r.word]}, ?_, hpresent _,
      fun k prel hk => ?_⟩
    · show (if old.sym = r.sym then _ else _) = _
      rw [if_pos hold]
      rfl
    rw [Map.get?_upsert] at hk
    split at hk
    next heq =>
      subst heq
      obtain rfl := Option.some.inj hk
      refine ⟨⟨r, hmem.mpr (.inr rfl), rfl⟩, fun w => ?_, fun x hx hxk => ?_⟩
      · rw [List.mem_append, hwords, List.mem_singleton]
        constructor
        · rintro (⟨x, hx, hxk, hw⟩ | rfl)
          · exact ⟨x, hmem.mpr (.inl hx), hxk, hw⟩
          · exact ⟨r, hmem.mpr (.inr rfl), rfl, rfl⟩
        · rintro ⟨x, hx, hxk, rfl⟩
          rcases hmem.mp hx with hx | rfl
          · exact .inl ⟨x, hx, hxk, rfl⟩
          · exact .inr rfl
      · rcases hmem.mp hx with hx | rfl
        · exact hsym x hx hxk
        · exact hold.symm
    next hne => exact hother hne hk

/-- **Registering words.** If the words of a label carry one symbol, none is lost. -/
theorem addSlots_registered (slots : List Slot)
    (hsym : ∀ x ∈ slots, ∀ y ∈ slots, x.label = y.label → x.sym = y.sym) :
    ∃ m, addSlots Map.empty slots = .ok m ∧ Registered slots m := by
  have hrun : ∀ done rest m, done ++ rest = slots → Registered done m →
      ∃ m', addSlots m rest = .ok m' ∧ Registered slots m' := by
    intro done rest
    induction rest generalizing done with
    | nil =>
      intro m heq h
      rw [List.append_nil] at heq
      exact ⟨m, rfl, heq ▸ h⟩
    | cons r rest ih =>
      intro m heq h
      obtain ⟨m', hm', h'⟩ := h.add (r := r) fun x hx => hsym x (by simp [← heq, hx]) r
        (by simp [← heq])
      obtain ⟨m'', hm'', h''⟩ := ih (done ++ [r]) m' (by rw [← heq, List.append_assoc]; rfl) h'
      refine ⟨m'', ?_, h''⟩
      unfold addSlots
      rw [List.foldlM_cons, hm']
      exact hm''
  exact hrun [] slots Map.empty rfl ⟨fun r hr => (by cases hr), fun k prel hk => (by cases hk)⟩

section Patched
variable (pending : Map Nat PendingReloc) (sections : String → List Constant) (passed : Nat → Prop)
  (block : Nat → Nat → Prop) (s : State)

/-- The labels that were `passed` wait no more, and their words hold the addresses of blocks;
`block k b` is what is known of the block `b` of the label `k`. -/
structure Patched : Prop where
  waits : ∀ k, (passed k → s.pending.get? k = none) ∧
    (¬ passed k → s.pending.get? k = pending.get? k)
  length : ∀ name, (s.sections name).length = (sections name).length
  kept : ∀ name i, (∀ k prel, passed k → pending.get? k = some prel →
    ∀ w ∈ prel.secs, ¬ (w.1 = name ∧ w.2 / 4 = i)) → (s.sections name)[i]? = (sections name)[i]?
  held : ∀ k prel, passed k → pending.get? k = some prel → ∀ w ∈ prel.secs,
    w.2 % 4 = 0 ∧ ∃ k' prel' b, passed k' ∧ pending.get? k' = some prel' ∧ w ∈ prel'.secs ∧
      block k' b ∧ (s.sections w.1)[w.2 / 4]? = some (.blockAddress b)

end Patched

namespace Patched
variable {pending : Map Nat PendingReloc} {sections : String → List Constant} {passed : Nat → Prop}
  {block block' : Nat → Nat → Prop} {n st addr : Nat} {s₁ s : State}

/-- What still waits has waited from the start. -/
theorem waiting (h : Patched pending sections passed block s) {k : Nat} {prel : PendingReloc}
    (hk : s.pending.get? k = some prel) : ¬ passed k ∧ pending.get? k = some prel := by
  have hno : ¬ passed k := fun hp => by
    rw [(h.waits k).1 hp] at hk
    cases hk
  exact ⟨hno, ((h.waits k).2 hno).symm.trans hk⟩

/-- **One more function.** -/
theorem run (h : Patched pending sections passed block s₁) (hl : Labelled n st s₁ addr s)
    (hold : ∀ k b, block k b → block' k b)
    (hnew : ∀ k, ∀ b ∈ s.func.indBBs, (s.bbs b).addr = some k → block' k b) :
    Patched pending sections (fun k => passed k ∨ Past st addr k) block' s := by
  -- The labels of the function still waited when it began.
  have hfirst : ∀ k prel, Past st addr k → s₁.pending.get? k = some prel → ∀ w ∈ prel.secs,
      w.2 % 4 = 0 ∧ ∃ k' prel' b, (passed k' ∨ Past st addr k') ∧ pending.get? k' = some prel' ∧
        w ∈ prel'.secs ∧ block' k' b ∧ (s.sections w.1)[w.2 / 4]? = some (.blockAddress b) := by
    intro k prel hp hk w hw
    obtain ⟨hmod, k', prel', b, hp', hk', hw', hb, haddr, hword⟩ := hl.held k prel hp hk w hw
    exact ⟨hmod, k', prel', b, .inr hp', (h.waiting hk').2, hw', hnew k' b hb haddr, hword⟩
  refine ⟨fun k => ⟨fun hp => ?_, fun hno => ?_⟩, fun name => (hl.length name).trans
    (h.length name),
    fun name i hk => ?_, fun k prel hp hk w hw => ?_⟩
  · rw [hl.pending]
    split
    next => rfl
    next hno => exact (h.waits k).1 (hp.resolve_right hno)
  · obtain ⟨hno, hno'⟩ := not_or.mp hno
    rw [hl.pending, if_neg hno']
    exact (h.waits k).2 hno
  · rw [hl.kept name i fun k prel hp hget => hk k prel (.inr hp) (h.waiting hget).2]
    exact h.kept name i fun k prel hp => hk k prel (.inl hp)
  · by_cases hpk : passed k
    · obtain ⟨hmod, k', prel', b, hp', hk', hw', hb, hword⟩ := h.held k prel hpk hk w hw
      by_cases hover : ∃ x prelx, Past st addr x ∧ s₁.pending.get? x = some prelx ∧
          ∃ v ∈ prelx.secs, v.1 = w.1 ∧ v.2 / 4 = w.2 / 4
      · obtain ⟨x, prelx, hpx, hx, v, hv, h₁, h₂⟩ := hover
        have hvmod := (hl.held x prelx hpx hx v hv).1
        obtain rfl : v = w := Prod.ext h₁ (by omega)
        exact hfirst x prelx hpx hx v hv
      · refine ⟨hmod, k', prel', b, .inl hp', hk', hw', hold k' b hb, ?_⟩
        rw [hl.kept w.1 (w.2 / 4) fun x prelx hpx hx v hv heq => hover ⟨x, prelx,
          hpx, hx, v, hv, heq⟩]
        exact hword
    · exact hfirst k prel (hp.resolve_left hpk) (((h.waits k).2 hpk).trans hk) w hw

theorem congr {passed' : Nat → Prop} (h : Patched pending sections passed block s₁)
    (hp : ∀ k, passed k ↔ passed' k) (hpend : s.pending = s₁.pending)
    (hsec : s.sections = s₁.sections) (hold : ∀ k b, block k b → block' k b) :
    Patched pending sections passed' block' s := by
  obtain rfl : passed = passed' := funext fun k => propext (hp k)
  refine ⟨?_, ?_, ?_, fun k prel hk hget w hw => ?_⟩
  · rw [hpend]
    exact h.waits
  · rw [hsec]
    exact h.length
  · rw [hsec]
    exact h.kept
  · obtain ⟨hmod, k', prel', b, h₁, h₂, h₃, h₄, h₅⟩ := h.held k prel hk hget w hw
    rw [hsec]
    exact ⟨hmod, k', prel', b, h₁, h₂, h₃, hold k' b h₄, h₅⟩

end Patched
end RiscvSbt.Block
