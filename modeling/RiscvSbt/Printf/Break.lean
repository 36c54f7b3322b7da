import RiscvSbt.Printf.Format

/-! Broken printf calls print what the original one does.

`Pieces` is what the calls are to be: each has a piece of the format with the arguments of
its specifications, and is one that the translator can handle. While the arguments are
grouped, the calls so far are pieces, and the last one holds the rest (`Open`). -/
namespace RiscvSbt.Printf
open Library

variable {n count k pos : Nat} {s : List Char} {F G : List Directive} {a b rest : List Arg}
  {st : State} {format : List Char → List Arg → List UInt8}

/-! ### Where the format is cut -/

theorem advance_char {c : Char} (hc : c ≠ '%') (h : advance n count s = .ok (k, pos)) :
    advance n count (c :: s) = .ok (k, pos + 1) := by
  unfold advance
  simp [hc, h, pure, Except.pure, bind, Except.bind]

theorem advance_escape (hn : count ≠ n + 1) (h : advance n count s = .ok (k, pos)) :
    advance n count ('%' :: '%' :: s) = .ok (k, pos + 2) := by
  simp [advance, hn, h, pure, Except.pure, bind, Except.bind]

theorem advance_percent {c : Char} (hc : c ≠ '%') (hn : count ≠ n)
    (h : advance n (count + 1) s = .ok (k, pos)) :
    advance n count ('%' :: c :: s) = .ok (k, pos + 2) := by
  simp [advance, hc, hn, h, pure, Except.pure, bind, Except.bind]

theorem advance_stop {c : Char} (hc : c ≠ '%') : advance n n ('%' :: c :: s) = .ok (n + 1, 0) := by
  simp [advance, hc, pure, Except.pure]

theorem advance_plain {w : List Char} (hw : ∀ c ∈ w, c ≠ '%')
    (h : advance n count s = .ok (k, pos)) :
    advance n count (w ++ s) = .ok (k, pos + w.length) := by
  induction w with
  | nil => exact h
  | cons c w ih =>
    have ih := ih fun x hx => hw x (List.mem_cons_of_mem c hx)
    exact advance_char (hw c List.mem_cons_self) ih

/-- A specification begins with a percent sign, and nothing in it is one. -/
theorem Spec.render_eq (s : Spec) : ∃ c w, s.render = c :: w ∧ ∀ x ∈ c :: w, x ≠ '%' := by
  obtain ⟨c, w, hw⟩ := List.exists_cons_of_ne_nil s.render_ne
  exact ⟨c, w, hw, hw ▸ s.no_percent⟩

/-- The format in front of a stop is passed. -/
theorem advance_render (h : Matches F a) (hs : advance n n s = .ok (k, 0))
    (hn : count + a.length = n) :
    advance n count (render F ++ s) = .ok (k, (render F).length) := by
  induction h generalizing count with
  | nil =>
    obtain rfl : count = n := hn
    exact hs
  | @text c hc F args _ ih => exact advance_char hc (ih hn)
  | percent _ ih => exact advance_escape (by omega) (ih hn)
  | @conv s arg F args _ _ ih =>
    have hlen : (arg :: args).length = args.length + 1 := rfl
    have hnext : advance n (count + 1) (render F ++ _) = _ := ih (by omega)
    obtain ⟨c, w, hw, hplain⟩ := s.render_eq
    have hrest := advance_plain (fun x hx => hplain x (List.mem_cons_of_mem c hx)) hnext
    have hall := advance_percent (hplain c List.mem_cons_self) (by omega) hrest
    rw [render_cons, List.append_assoc, Directive.render, hw, List.length_append, Nat.add_comm]
    exact hall

theorem advance_conv (s : Spec) : advance n n (render (.conv s :: F)) = .ok (n + 1, 0) := by
  obtain ⟨c, w, hw, hplain⟩ := s.render_eq
  rw [render_cons, Directive.render, hw]
  exact advance_stop (hplain c List.mem_cons_self)

/-! ### Pieces -/

/-- A call that the translator can handle, for some arguments of a format. -/
structure Piece (pcall : PCall) (F : List Directive) (a : List Arg) : Prop where
  fmt : pcall.fmt = render F
  args : Matches F a
  count : pcall.args = a.length
  simple : if pcall.isDouble then ∃ v, a = [.double v]
    else a.length ≤ 4 ∧ ∀ x ∈ a, x.isDouble = false

inductive Pieces : List PCall → List Directive → List Arg → Prop
  | nil : Pieces [] [] []
  | cons {pcall : PCall} {pcalls : List PCall} {F G : List Directive} {a b : List Arg}
      (first : Piece pcall F a) (rest : Pieces pcalls G b) :
      Pieces (pcall :: pcalls) (F ++ G) (a ++ b)

theorem Pieces.concat {pcalls : List PCall} {pcall : PCall} (h : Pieces pcalls F a)
    (hp : Piece pcall G b) : Pieces (pcalls ++ [pcall]) (F ++ G) (a ++ b) := by
  induction h with
  | nil =>
    have hone := Pieces.cons hp .nil
    rwa [List.append_nil, List.append_nil] at hone
  | cons first _ ih =>
    rw [List.append_assoc, List.append_assoc]
    exact .cons first ih

/-- The calls so far, and what is left of the format for the arguments that are. -/
structure Open (st : State) (F : List Directive) (args rest : List Arg) : Prop where
  split : ∃ F₀ G a, F = F₀ ++ G ∧ args = a ++ rest ∧ Pieces st.front F₀ a ∧
    st.back = ⟨render G, rest.length, false⟩ ∧ Matches G rest
  left : st.n - (st.i - 1) = rest.length
  pos : 0 < st.i

theorem Open.types {args : List Arg} (h : Open st F args rest) :
    ∀ x ∈ rest, (∃ bits v, x = .int bits v ∧ bits ≤ 32) ∨ (∃ v, x = .ptr v) ∨
      ∃ v, x = .double v := by
  obtain ⟨_, _, _, -, -, -, -, hmatch⟩ := h.split
  exact hmatch.types

theorem Open.init (h : Matches F a) : Open ⟨1, a.length, [], ⟨render F, a.length, false⟩⟩ F a a :=
  ⟨⟨[], F, [], rfl, rfl, .nil, rfl, h⟩, rfl, Nat.one_pos⟩

/-- The next group of arguments. -/
structure Group (isDouble : Bool) (a : List Arg) : Prop where
  ne : a ≠ []
  simple : if isDouble then ∃ v, a = [.double v]
    else a.length ≤ 4 ∧ ∀ x ∈ a, x.isDouble = false

theorem Group.not_throw {isDouble : Bool} (h : Group isDouble a) :
    (isDouble && decide (a.length ≠ 1)) = false := by
  cases isDouble with
  | false => rfl
  | true =>
    obtain ⟨v, rfl⟩ := h.simple
    rfl

/-- What becomes of the state: arguments are left, or all calls are made. -/
def Grouped (st : State) (F : List Directive) (args rest : List Arg) : Prop :=
  if rest = [] then Pieces st.pcalls F args else Open st F args rest

/-- **One cut.** -/
theorem Open.cut {isDouble : Bool} {args : List Arg} (h : Open st F args (a ++ rest))
    (ha : Group isDouble a) :
    ∃ st', st.split a.length isDouble = .ok st' ∧ Grouped st' F args rest := by
  obtain ⟨⟨F₀, G, a₀, rfl, rfl, hfront, hback, hmatch⟩, hleft, hpos⟩ := h
  unfold State.split
  rw [ha.not_throw, if_neg Bool.false_ne_true, hback]
  by_cases hrest : rest = []
  · -- The rest of the format is the last piece.
    subst hrest
    rw [List.append_nil] at hmatch hback hleft
    have hadv : advance a.length 0 (render G) = .ok (a.length, (render G).length) := by
      have hend : advance a.length a.length [] = .ok (a.length, 0) := rfl
      simpa using advance_render hmatch hend (Nat.zero_add _)
    simp only [hadv, bind, Except.bind, List.append_nil, or_true, and_self, not_true, if_false,
      ne_eq]
    have hdone : ∀ st' : State, st'.front = st.front → st'.back = ⟨render G, a.length, isDouble⟩ →
        Grouped st' (F₀ ++ G) (a₀ ++ a) [] := by
      intro st' hf hb
      refine (if_pos rfl).mpr ?_
      rw [State.pcalls, hf, hb]
      exact hfront.concat ⟨rfl, hmatch, rfl, ha.simple⟩
    cases isDouble with
    | true => exact ⟨_, rfl, hdone _ rfl rfl⟩
    | false => exact ⟨_, rfl, hdone _ rfl rfl⟩
  · obtain ⟨G₁, s, G₂, rfl, h₁, h₂⟩ := hmatch.cut hrest
    have hadv : advance a.length 0 (render (G₁ ++ .conv s :: G₂)) =
        .ok (a.length + 1, (render G₁).length) := by
      rw [render_append]
      exact advance_render h₁ (advance_conv s) (Nat.zero_add _)
    have hne : a.length + 1 ≠ a.length := by omega
    simp only [hadv, bind, Except.bind, true_or, not_true, if_false, ne_eq, hne, not_false_eq_true,
      if_true]
    refine ⟨_, rfl, ?_⟩
    unfold Grouped
    rw [if_neg hrest]
    have hlen : st.n - (st.i - 1) = a.length + rest.length := by rw [hleft, List.length_append]
    refine ⟨⟨F₀ ++ G₁, .conv s :: G₂, a₀ ++ a, by simp, by simp, ?_, ?_, h₂⟩, ?_, ?_⟩
    · rw [render_append, List.take_left' rfl]
      exact hfront.concat ⟨rfl, h₁, rfl, ha.simple⟩
    · rw [render_append, List.drop_left' rfl, hlen, Nat.add_sub_cancel_left]
    · have := List.length_pos_iff.mpr hrest
      show st.n - (st.i + a.length - 1) = rest.length
      omega
    · show 0 < st.i + a.length
      omega

/-! ### The groups -/

/-- What a loop has to keep of its state. -/
def Good (x : Except String (State × List Arg)) (F : List Directive) (args : List Arg)
    (len : Nat) : Prop :=
  ∃ st' rest', x = .ok (st', rest') ∧ Grouped st' F args rest' ∧ rest'.length < len

/-- The loop over the arguments of a group, behind those of `a`. -/
theorem Open.group {args : List Arg} (h : Open st F args (a ++ rest)) (hlen : a.length ≤ 4)
    (ha : ∀ x ∈ a, x.isDouble = false) (hne : a ++ rest ≠ []) :
    Good (st.group a.length rest) F args (a ++ rest).length := by
  induction rest generalizing a with
  | nil =>
    rw [List.append_nil] at hne
    have hword : Group false a := ⟨hne, hlen, ha⟩
    obtain ⟨st', hst', hg⟩ := h.cut hword
    refine ⟨st', [], ?_, hg, List.length_pos_iff.mpr (by simpa using hne)⟩
    unfold State.group
    rw [hst']
    rfl
  | cons x rest ih =>
    unfold State.group
    by_cases hfour : a.length = 4
    · have hne : a ≠ [] := List.ne_nil_of_length_pos (by omega)
      have hword : Group false a := ⟨hne, hlen, ha⟩
      obtain ⟨st', hst', hg⟩ := h.cut hword
      refine ⟨st', x :: rest, ?_, hg, by rw [List.length_append]; omega⟩
      rw [if_pos hfour, hst']
      rfl
    rw [if_neg hfour]
    -- An integer or a pointer joins the group.
    have hjoin : x.isDouble = false → Good (st.group (a.length + 1) rest) F args
        (a ++ x :: rest).length := by
      intro hx
      have hnext := ih (a := a ++ [x]) (by simpa using h) (by simp; omega)
        (fun y hy => (List.mem_append.mp hy).elim (ha y) fun hy => List.mem_singleton.mp hy ▸ hx)
        (by simp)
      simpa using hnext
    rcases h.types x (by simp) with ⟨bits, v, rfl, hbits⟩ | ⟨v, rfl⟩ | ⟨v, rfl⟩
    · show Good (if bits ≤ 32 then _ else _) _ _ _
      rw [if_pos hbits]
      exact hjoin rfl
    · exact hjoin rfl
    · -- A double is a group, behind the one so far.
      have hdouble : ∀ st', Open st' F args (.double v :: rest) →
          Good (do pure (← st'.split 1 true, rest)) F args (a ++ .double v :: rest).length := by
        intro st' h'
        have hone : Group true [.double v] := ⟨nofun, v, rfl⟩
        obtain ⟨st'', hst'', hg⟩ := Open.cut h' hone
        refine ⟨st'', rest, ?_, hg, by rw [List.length_append, List.length_cons]; omega⟩
        rw [show st'.split 1 true = _ from hst'']
        rfl
      by_cases hzero : a.length = 0
      · obtain rfl := List.length_eq_zero_iff.mp hzero
        exact hdouble st h
      · have hword : Group false a := ⟨fun ha => hzero (ha ▸ rfl), hlen, ha⟩
        obtain ⟨st', hst', hg⟩ := h.cut hword
        have hopen : Open st' F args (.double v :: rest) := (if_neg nofun).mp hg
        rw [if_pos hzero, hst']
        exact hdouble st' hopen

/-- The loop over the groups. -/
theorem Open.groups {args : List Arg} {fuel : Nat} (h : Open st F args rest) (hne : rest ≠ [])
    (hfuel : rest.length ≤ fuel) :
    ∃ st', State.groups fuel st rest = .ok st' ∧ Pieces st'.pcalls F args := by
  induction fuel generalizing st rest with
  | zero => exact absurd (List.length_eq_zero_iff.mp (Nat.le_zero.mp hfuel)) hne
  | succ fuel ih =>
    obtain ⟨arg, rest, rfl⟩ := List.exists_cons_of_ne_nil hne
    obtain ⟨st', rest', hst', hg, hlt⟩ := h.group (a := []) (by simp) nofun hne
    unfold State.groups
    rw [show st.group 0 (arg :: rest) = _ from hst']
    by_cases hrest : rest' = []
    · subst hrest
      refine ⟨st', ?_, (if_pos rfl).mp hg⟩
      cases fuel <;> rfl
    · have hle : rest'.length ≤ fuel := Nat.le_of_lt_succ (Nat.lt_of_lt_of_le hlt hfuel)
      exact ih ((if_neg hrest).mp hg) hrest hle

/-! ### The calls -/

/-- A call that the translator can handle: few arguments of a word, or one double. -/
structure Call.Simple (c : Call) : Prop where
  printf : c.callee = .printf → c.args.length ≤ 4 ∧ ∀ x ∈ c.args, x.isDouble = false
  double : c.callee = .sbt_printf_d → ∃ v, c.args = [.double v]

/-- Simple calls with the pieces of a format, each with the arguments of its piece. -/
inductive Broken : List Call → List Directive → List Arg → Prop
  | nil : Broken [] [] []
  | cons {c : Call} {calls : List Call} {F G : List Directive} {b : List Arg}
      (fmt : c.fmt = render F) (args : Matches F c.args) (simple : c.Simple)
      (rest : Broken calls G b) : Broken (c :: calls) (F ++ G) (c.args ++ b)

theorem Broken.single {c : Call} (fmt : c.fmt = render F) (args : Matches F c.args)
    (simple : c.Simple) : Broken [c] F c.args := by
  simpa using Broken.cons fmt args simple .nil

/-- Each piece gets its arguments. -/
theorem Pieces.issue {pcalls : List PCall} (h : Pieces pcalls F a) :
    ∃ calls, issueNewCalls pcalls a = .ok calls ∧ Broken calls F a := by
  induction h with
  | nil => exact ⟨[], rfl, .nil⟩
  | @cons pcall pcalls F G a b first _ ih =>
    obtain ⟨calls, hcalls, hbroken⟩ := ih
    obtain ⟨hfmt, hargs, hcount, hsimple⟩ := first
    have hle : ¬ (a ++ b).length < a.length := by simp
    have hissue : (if pcall.isDouble then 1 else pcall.args) = a.length →
        issueNewCalls (pcall :: pcalls) (a ++ b) = .ok
          (⟨if pcall.isDouble then .sbt_printf_d else .printf, pcall.fmt, a⟩ :: calls) := by
      intro hn
      simp only [issueNewCalls, hn, if_neg hle, List.take_left' rfl, List.drop_left' rfl, hcalls]
      rfl
    cases hd : pcall.isDouble with
    | true =>
      rw [hd] at hissue hsimple
      obtain ⟨v, rfl⟩ := hsimple
      refine ⟨_, hissue rfl, ?_⟩
      exact .cons (c := ⟨_, _, _⟩) hfmt hargs ⟨nofun, fun _ => ⟨v, rfl⟩⟩ hbroken
    | false =>
      rw [hd] at hissue hsimple
      refine ⟨_, hissue hcount, ?_⟩
      exact .cons (c := ⟨_, _, _⟩) hfmt hargs ⟨fun _ => hsimple, nofun⟩ hbroken

theorem Additive.nil (hf : Additive format) : format [] [] = [] := by
  have h := congrArg List.length (hf [] [] [] [] .nil .nil)
  rw [List.append_nil, List.append_nil, List.length_append] at h
  exact List.length_eq_zero_iff.mp (by simpa using h)

/-- What the calls print together. -/
theorem Broken.prints {calls : List Call} (hf : Additive format) (h : Broken calls F a) :
    Matches F a ∧ prints format calls = format (render F) a := by
  induction h with
  | nil => exact ⟨.nil, hf.nil.symm⟩
  | @cons c calls F G b fmt args _ _ ih =>
    obtain ⟨hm, hprints⟩ := ih
    refine ⟨args.append hm, ?_⟩
    rw [hf F G c.args b args hm, ← fmt, ← hprints]
    rfl

theorem Broken.args {calls : List Call} (h : Broken calls F a) : calls.flatMap Call.args = a := by
  induction h with
  | nil => rfl
  | @cons c calls F G b _ _ _ _ ih =>
    rw [List.flatMap_cons, ih]

theorem Broken.simple {calls : List Call} (h : Broken calls F a) : ∀ c ∈ calls, c.Simple := by
  induction h with
  | nil => exact nofun
  | cons _ _ simple _ ih =>
    intro c hc
    rcases List.mem_cons.mp hc with rfl | hc
    · exact simple
    · exact ih c hc

/-- The sum of the answers is the number of bytes that are printed. -/
theorem answers_eq (format : List Char → List Arg → List UInt8) (calls : List Call) :
    answers format calls = BitVec.ofNat 32 (prints format calls).length := by
  have hrun : ∀ ret, calls.foldl (fun ret c => ret + c.answers format) ret =
      ret + BitVec.ofNat 32 (Printf.prints format calls).length := by
    induction calls with
    | nil => simp [Printf.prints]
    | cons c calls ih =>
      intro ret
      rw [List.foldl_cons, ih]
      simp only [Call.answers, Printf.prints, List.flatMap_cons, List.length_append,
        BitVec.ofNat_add, BitVec.add_assoc]
  rw [answers, hrun]
  simp

/-- A call that is left as it is. -/
theorem simple_of_few (fmt : List Char) {args : List Arg} (hlt : args.length < 5)
    (h : ¬ args.any Arg.is2xLen) : Call.Simple ⟨.printf, fmt, args⟩ := by
  refine ⟨fun _ => ⟨Nat.le_of_lt_succ hlt, fun x hx => ?_⟩, nofun⟩
  cases x with
  | double v => exact absurd (List.any_eq_true.mpr ⟨_, hx, rfl⟩) h
  | _ => rfl

theorem issued_broken {args : List Arg} (h : Matches F args) :
    ∃ calls, issued (render F) args = .ok calls ∧ Broken calls F args := by
  unfold issued breakPrintfCall
  by_cases hfew : args.length < 5 ∧ ¬ args.any Arg.is2xLen
  · refine ⟨[⟨.printf, render F, args⟩], by rw [if_pos hfew]; rfl, ?_⟩
    exact .single (c := ⟨_, _, _⟩) rfl h (simple_of_few _ hfew.1 hfew.2)
  · have hne : args ≠ [] := by
      rintro rfl
      exact hfew ⟨by decide, by decide⟩
    obtain ⟨st, hst, hpieces⟩ := (Open.init h).groups hne (Nat.le_refl _)
    obtain ⟨calls, hcalls, hbroken⟩ := hpieces.issue
    refine ⟨calls, ?_, hbroken⟩
    rw [if_neg hfew, hst]
    simp only [bind, Except.bind, hcalls]
    rfl

/-- **Breaking a printf call keeps its output and its answer**, for any text and escapes and
any arguments, where formats can be formatted piece by piece. -/
theorem printf_preserved (format : List Char → List Arg → List UInt8) (F : List Directive)
    (args : List Arg) (hf : Additive format) (h : Matches F args) :
    ∃ calls, issued (render F) args = .ok calls ∧
      prints format calls = format (render F) args ∧
      answers format calls = BitVec.ofNat 32 (format (render F) args).length ∧
      (∀ c ∈ calls, c.Simple) ∧ calls.flatMap Call.args = args := by
  obtain ⟨calls, hcalls, hbroken⟩ := issued_broken h
  obtain ⟨-, hprints⟩ := hbroken.prints hf
  refine ⟨calls, hcalls, hprints, ?_, hbroken.simple, hbroken.args⟩
  rw [answers_eq, hprints]

def specOf (conv : Char) (h : conv ∈ conversions) : Directive := .conv ⟨[], conv, nofun, h⟩

/-- `"%d %f %f\n"`. -/
def threeSpecs : List Directive :=
  [specOf 'd' (by decide), .text ' ' (by decide), specOf 'f' (by decide), .text ' ' (by decide),
    specOf 'f' (by decide), .text '\n' (by decide)]

/-- 10, 20.2 and 30.3. -/
def threeArgs : List Arg :=
  [.int 32 10, .double 0x4034333333333333#64, .double 0x403E4CCCCCCCCCCD#64]

theorem three_printed : ∃ calls, issued (render threeSpecs) threeArgs = .ok calls ∧
    prints (formatFrom false) calls = formatFrom false (render threeSpecs) threeArgs ∧
    answers (formatFrom false) calls =
      BitVec.ofNat 32 (formatFrom false (render threeSpecs) threeArgs).length ∧
    (∀ c ∈ calls, c.Simple) ∧ calls.flatMap Call.args = threeArgs :=
  printf_preserved (formatFrom false) threeSpecs threeArgs formatFrom_additive
    (.conv rfl (.text (.conv rfl (.text (.conv rfl (.text .nil))))))

example : formatFrom false (render threeSpecs) threeArgs =
    bytes "10 20.200000 30.300000\n".toList := by decide +kernel

end RiscvSbt.Printf
