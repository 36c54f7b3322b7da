import RiscvSbt.Source.Machine

/-! What is read of a written map, and of any file.

The reader takes a file line by line. Behind the last newline it finds one more line, that is
empty, and adds it to the code of the last address. An address line that follows another finds no
code. -/
namespace RiscvSbt.Source
open Library

variable {addr : Nat} {ln : List Char}

namespace Reader

/-! ### Line by line -/

def process (first : Bool) : List (List Char) → Reader → Except Fault A2S
  | [], r => .ok r.finish
  | ln :: lns, r =>
    match r.line first ln with
    | .error fault => .error fault
    | .ok r => process false lns r

/-- The loop goes through the lines of the rest of the file. -/
theorem loop_eq (buf : List Char) (idx : Nat) (r : Reader) :
    loop buf idx r = process (idx = 0) (lines (buf.drop idx)) r := by
  induction hn : buf.length - idx using Nat.strongRecOn generalizing idx r with
  | ind n ih =>
    rw [loop]
    cases hpos : find buf '\n' idx with
    | none =>
      rw [lines_tail (find_none hpos)]
      cases hline : r.line (idx = 0) (buf.drop idx) <;>
        simp [substr, process, hline]
    | some pos =>
      obtain ⟨l, rest, hdrop, hl, rfl⟩ := find_some hpos
      have hlen := congrArg List.length hdrop
      rw [List.length_drop, List.length_append, List.length_cons] at hlen
      have hnext : idx + (idx + l.length - idx + 1) = idx + (l.length + 1) := by omega
      have hrest : buf.drop (idx + (l.length + 1)) = rest := by
        rw [← List.drop_drop, hdrop, List.drop_length_add_append]
        rfl
      have hln : substr buf idx (some (idx + l.length - idx + 1)) = l ++ ['\n'] := by
        rw [substr, hdrop, Nat.add_sub_cancel_left, List.take_length_add_append]
        rfl
      have hfirst : decide (idx + (l.length + 1) = 0) = false := by simp
      rw [hdrop, lines_line hl]
      simp only [Option.map_some, hln, process]
      cases r.line (idx = 0) (l ++ ['\n']) with
      | error fault => rfl
      | ok r' =>
        show loop buf (idx + (idx + l.length - idx + 1)) r' = _
        rw [hnext, ih _ (by omega) _ r' rfl, hrest, hfirst]

end Reader

theorem parse_eq (buf : List Char) : parse buf = Reader.process true (lines buf) {} :=
  Reader.loop_eq buf 0 {}

/-! ### Lines of a written map -/

theorem addrStr_header (h : addr < 2 ^ 32) : addrStr (header addr) = some (hex4 addr) := by
  have hno (c : Char) (hc : digitValue c = none) : c ∉ hex4 addr := fun hmem =>
    digitValue_of_mem_hex4 hmem hc
  have hlen := hex4_length h
  have hopen : find (header addr) '[' 0 = some 0 := find_append (l := []) List.not_mem_nil _
  have hclose : find (header addr) ']' 0 = some ((hex4 addr).length + 1) :=
    find_append (l := '[' :: hex4 addr) (by simpa using hno ']' (by decide)) [':', '\n']
  have hcolon : find (header addr) ':' 0 = some ((hex4 addr).length + 2) := by
    have hfind := find_append (c := ':') (l := '[' :: hex4 addr ++ [']'])
      (by simpa using hno ':' (by decide)) ['\n']
    simpa [header] using hfind
  have hcond : 0 = 0 ∧ (hex4 addr).length + 1 - 0 < 10 ∧
      (hex4 addr).length + 2 = (hex4 addr).length + 1 + 1 ∧
        (hex4 addr).length + 2 + 2 = (header addr).length := by
    simp [header]
    omega
  unfold addrStr
  rw [hopen, hclose, hcolon]
  dsimp only
  rw [if_pos hcond]
  simp [substr, header]

/-- A source line as the reader keeps it. -/
def comment (ln : List Char) : List Char := (if ln = [] then ['#'] else ['#', ' ']) ++ ln

/-- An address with its source lines. -/
structure Entry where
  addr : Nat
  lns : List (List Char)
  addr_lt : addr < 2 ^ 32
  lns_ne : lns ≠ []
  newline : ∀ ln ∈ lns, '\n' ∉ ln
  source : ∀ ln ∈ lns, addrStr (ln ++ ['\n']) = none

namespace Entry
variable (e : Entry)

/-- The entry in a listing: its lines are in front of its instruction's. -/
def listing : List Ln := e.lns.map .src ++ [.addr e.addr]

/-- What is expected of its lookup. -/
def code : List Char := List.intercalate ['\n'] (e.lns.map comment)

/-- The lines that are written of it. -/
def written : List (List Char) := header e.addr :: e.lns.map (· ++ ['\n'])

end Entry

theorem addr2src_src (lns ls : List (List Char)) (fin : List Ln) :
    addr2src lns (ls.map .src ++ fin) = addr2src (lns ++ ls) fin := by
  induction ls generalizing lns with
  | nil => simp
  | cons l ls ih =>
    rw [List.map_cons, List.cons_append, addr2src, ih, List.append_assoc]
    rfl

/-- The lines of the written file, with the empty one at its end. -/
theorem lines_addr2src (es : List Entry) :
    lines (addr2src [] (es.flatMap Entry.listing)) = es.flatMap Entry.written ++ [[]] := by
  induction es with
  | nil => rfl
  | cons e es ih =>
    have hheader : header e.addr = ('[' :: hex4 e.addr ++ [']', ':']) ++ ['\n'] := by
      simp [header]
    have hno : '\n' ∉ '[' :: hex4 e.addr ++ [']', ':'] := by
      have hdigits : '\n' ∉ hex4 e.addr := fun hmem => digitValue_of_mem_hex4 hmem (by decide)
      simpa using hdigits
    have hfile : addr2src [] ((e :: es).flatMap Entry.listing) = header e.addr ++
        e.lns.flatMap (· ++ ['\n']) ++ addr2src [] (es.flatMap Entry.listing) := by
      rw [List.flatMap_cons, Entry.listing, List.append_assoc, addr2src_src, List.nil_append,
        List.singleton_append, addr2src, if_neg e.lns_ne]
    rw [hfile, hheader, List.append_assoc, List.append_assoc, List.singleton_append,
      lines_line hno, lines_flatMap e.newline, ih, List.flatMap_cons, Entry.written, hheader]
    simp

/-! ### Reading them -/

namespace Reader

theorem line_source {r : Reader} (first : Bool) (h : addrStr (ln ++ ['\n']) = none) :
    r.line first (ln ++ ['\n']) = .ok {r with code := r.code ++ (comment ln ++ ['\n'])} := by
  unfold line
  rw [h]
  cases ln <;> simp [comment]

/-- The source lines of an address. -/
theorem process_source {lns : List (List Char)} (h : ∀ ln ∈ lns, addrStr (ln ++ ['\n']) = none)
    (rest : List (List Char)) (r : Reader) :
    process false (lns.map (· ++ ['\n']) ++ rest) r =
      process false rest {r with code := r.code ++ lns.flatMap fun ln => comment ln ++ ['\n']} := by
  induction lns generalizing r with
  | nil => simp
  | cons ln lns ih =>
    rw [List.map_cons, List.cons_append, process, line_source _ (h ln List.mem_cons_self)]
    simp only [ih fun ln' hln' => h ln' (List.mem_cons_of_mem _ hln'), List.flatMap_cons,
      List.append_assoc]

/-- The reader behind the lines of an entry. -/
def pending (a2s : A2S) (e : Entry) : Reader := ⟨e.addr, e.code ++ ['\n'], a2s⟩

theorem flatMap_comment {lns : List (List Char)} (h : lns ≠ []) :
    (lns.flatMap fun ln => comment ln ++ ['\n']) =
      List.intercalate ['\n'] (lns.map comment) ++ ['\n'] := by
  induction lns with
  | nil => exact absurd rfl h
  | cons ln lns ih =>
    cases lns with
    | nil => simp [List.intercalate]
    | cons ln' lns =>
      rw [List.flatMap_cons, ih (List.cons_ne_nil _ _)]
      simp [List.intercalate]

theorem line_header {r : Reader} (first : Bool) (h : addr < 2 ^ 32) :
    r.line first (header addr) = (do
      let r ← r.enter first
      .ok {r with addr := addr}) := by
  unfold line
  rw [addrStr_header h]
  simp only [hexValue_hex4]

theorem flush_pending (a2s : A2S) (e : Entry) :
    (pending a2s e).flush = .ok ⟨e.addr, [], insert a2s e.addr e.code⟩ := by
  simp [flush, pending]

/-- The source lines of an entry, behind its address. -/
theorem process_entry (e : Entry) (a2s : A2S) (rest : List (List Char)) :
    process false (e.lns.map (· ++ ['\n']) ++ rest) ⟨e.addr, [], a2s⟩ =
      process false rest (pending a2s e) := by
  rw [process_source e.source, List.nil_append, flatMap_comment e.lns_ne]
  rfl

/-- An entry at the start of the file. -/
theorem process_first (e : Entry) (rest : List (List Char)) :
    process true (e.written ++ rest) {} = process false rest (pending (fun _ => none) e) := by
  rw [Entry.written, List.cons_append, process, line_header _ e.addr_lt]
  exact process_entry e _ rest

/-- An entry behind another one, that is entered. -/
theorem process_next (e e' : Entry) (a2s : A2S) (rest : List (List Char)) :
    process false (e'.written ++ rest) (pending a2s e) =
      process false rest (pending (insert a2s e.addr e.code) e') := by
  rw [Entry.written, List.cons_append, process, line_header _ e'.addr_lt]
  simp only [enter, Bool.false_eq_true, if_false, flush_pending]
  exact process_entry e' _ rest

/-- At the end of the file the code gets one line more. -/
theorem process_last (e : Entry) (a2s : A2S) :
    process false [[]] (pending a2s e) =
      .ok (insert a2s e.addr (e.code ++ ['\n', '#', ' '])) := by
  simp [process, line, addrStr, find, pending, finish]

/-- What is read of the entries from `e` on. -/
def result (a2s : A2S) (e : Entry) : List Entry → A2S
  | [] => insert a2s e.addr (e.code ++ ['\n', '#', ' '])
  | e' :: es => result (insert a2s e.addr e.code) e' es

theorem process_entries (es : List Entry) (e : Entry) (a2s : A2S) :
    process false (es.flatMap Entry.written ++ [[]]) (pending a2s e) = .ok (result a2s e es) := by
  induction es generalizing e a2s with
  | nil => exact process_last e a2s
  | cons e' es ih =>
    rw [List.flatMap_cons, List.append_assoc, process_next, ih]
    rfl

end Reader

/-! ### Lookups -/

/-- The entries of a program. -/
structure Entries where
  list : List Entry
  distinct : list.Pairwise fun e e' => e.addr ≠ e'.addr

/-- What a lookup should give: the code of an entry, or nothing. -/
def expected (es : List Entry) (addr : Nat) : List Char :=
  ((es.find? fun e => e.addr = addr).map Entry.code).getD []

/-- The last address, zero if there is none. -/
def lastAddr (es : List Entry) : Nat := (es.getLast?.map Entry.addr).getD 0

theorem insert_new {a2s : A2S} (h : a2s addr = none) (code : List Char) :
    insert a2s addr code = Function.update a2s addr (some code) := if_pos h

theorem find?_addr {es : List Entry} (hd : es.Pairwise fun e e' => e.addr ≠ e'.addr) {e : Entry}
    (he : e ∈ es) : es.find? (fun e' => e'.addr = e.addr) = some e := by
  induction es with
  | nil => cases he
  | cons e' es ih =>
    obtain ⟨hne, hd⟩ := List.pairwise_cons.1 hd
    rcases List.mem_cons.1 he with rfl | he
    · simp
    · rw [List.find?_cons_of_neg (by simpa using hne e he), ih hd he]

theorem lastAddr_cons (e e' : Entry) (es : List Entry) :
    lastAddr (e :: e' :: es) = lastAddr (e' :: es) := by
  simp [lastAddr, List.getLast?_cons_cons]

/-- The entries are all there, the last one with a line too many. -/
theorem result_get (es : List Entry) (e : Entry) (a2s : A2S)
    (hd : (e :: es).Pairwise fun e e' => e.addr ≠ e'.addr)
    (hnew : ∀ e' ∈ e :: es, a2s e'.addr = none) (addr : Nat) :
    Reader.result a2s e es addr =
      if addr = lastAddr (e :: es) then
        some (((e :: es).getLast (List.cons_ne_nil _ _)).code ++ ['\n', '#', ' '])
      else (((e :: es).find? fun e => e.addr = addr).map Entry.code).or (a2s addr) := by
  induction es generalizing e a2s with
  | nil =>
    rw [Reader.result, insert_new (hnew e List.mem_cons_self)]
    by_cases haddr : addr = e.addr
    · simp [haddr, lastAddr]
    · have haddr' : e.addr ≠ addr := Ne.symm haddr
      simp [haddr, haddr', lastAddr]
  | cons e' es ih =>
    obtain ⟨hne, hd'⟩ := List.pairwise_cons.1 hd
    have hinsert := insert_new (hnew e List.mem_cons_self) e.code
    have hnew' : ∀ e'' ∈ e' :: es, insert a2s e.addr e.code e''.addr = none := fun e'' he'' => by
      rw [hinsert, Function.update_of_ne (hne e'' he'').symm,
        hnew e'' (List.mem_cons_of_mem _ he'')]
    rw [Reader.result, ih e' _ hd' hnew', lastAddr_cons, List.getLast_cons (List.cons_ne_nil _ _)]
    by_cases haddr : addr = e.addr
    · subst haddr
      have hnone : (e' :: es).find? (fun e'' => e''.addr = e.addr) = none :=
        List.find?_eq_none.2 fun e'' he'' => by simpa using (hne e'' he'').symm
      rw [hinsert, Function.update_self, hnone, List.find?_cons_of_pos (by simp)]
      rfl
    · have hskip : (e :: e' :: es).find? (fun e => e.addr = addr) =
          (e' :: es).find? fun e => e.addr = addr :=
        List.find?_cons_of_neg (by simpa using Ne.symm haddr)
      rw [hinsert, Function.update_of_ne haddr, hskip]

/-- The written file is read, and a lookup is as expected at all addresses but the last one. -/
theorem written_read (es : Entries) : ∃ a2s,
    parse (addr2src [] (es.list.flatMap Entry.listing)) = .ok a2s ∧
      ∀ addr, lookup a2s addr = expected es.list addr ↔ addr ≠ lastAddr es.list := by
  obtain ⟨es, hd⟩ := es
  rw [parse_eq, lines_addr2src]
  cases es with
  | nil =>
    refine ⟨insert (fun _ => none) 0 ['#', ' '], ?_, fun addr => ?_⟩
    · simp [Reader.process, Reader.line, addrStr, find, Reader.finish]
    · by_cases haddr : addr = 0
      · subst haddr
        refine iff_of_false (fun h => ?_) fun h => h rfl
        cases h
      · refine iff_of_true ?_ haddr
        rw [insert_new rfl, lookup, Function.update_of_ne haddr]
        rfl
  | cons e es =>
    rw [List.flatMap_cons, List.append_assoc, Reader.process_first, Reader.process_entries]
    refine ⟨_, rfl, fun addr => ?_⟩
    rw [lookup, result_get es e _ hd fun _ _ => rfl]
    by_cases haddr : addr = lastAddr (e :: es)
    · have hlast : addr = ((e :: es).getLast (List.cons_ne_nil _ _)).addr := by
        rw [haddr, lastAddr, List.getLast?_eq_some_getLast (List.cons_ne_nil _ _)]
        rfl
      rw [if_pos haddr, expected, hlast, find?_addr hd (List.getLast_mem _)]
      refine iff_of_false (fun h => ?_) fun h => h (hlast ▸ haddr)
      have hlen := congrArg List.length h
      simp at hlen
    · rw [if_neg haddr, Option.or_none, expected]
      exact iff_of_true rfl haddr

/-! ### Any file -/

/-- An address line follows another one, the addresses up to there being valid. -/
def Adjacent : List (List Char) → Prop
  | [] => False
  | ln :: lns =>
    match addrStr ln with
    | none => Adjacent lns
    | some str => (hexValue str).isSome ∧ ((∃ ln' ∈ lns.head?, (addrStr ln').isSome) ∨ Adjacent lns)

theorem process_lastOfEmpty (lns : List (List Char)) (first : Bool) (r : Reader)
    (hfirst : first = true → r.code = []) :
    Reader.process first lns r = .error .lastOfEmpty ↔
      (first = false ∧ r.code = [] ∧ ∃ ln ∈ lns.head?, (addrStr ln).isSome) ∨ Adjacent lns := by
  induction lns generalizing first r with
  | nil => simp [Reader.process, Adjacent]
  | cons ln lns ih =>
    cases hstr : addrStr ln with
    | none =>
      -- the code gets a line
      have hline : ∃ code, code ≠ [] ∧ r.line first ln = .ok {r with code := code} := by
        refine ⟨_, ?_, by rw [Reader.line, hstr]⟩
        split <;> simp
      obtain ⟨code, hcode, hline⟩ := hline
      have hrest := ih false {r with code := code} nofun
      simp [Reader.process, hline, hrest, Adjacent, hstr, hcode]
    | some str =>
      by_cases hempty : first = false ∧ r.code = []
      · obtain ⟨rfl, hcode⟩ := hempty
        have henter : r.enter false = .error .lastOfEmpty := if_pos hcode
        have hline : r.line false ln = .error .lastOfEmpty := by
          rw [Reader.line, hstr, henter]
          rfl
        simp [Reader.process, hline, hcode, hstr]
      · -- what is kept is entered, and none is left
        obtain ⟨r', hcode', henter⟩ : ∃ r' : Reader, r'.code = [] ∧ r.enter first = .ok r' := by
          cases first with
          | true => exact ⟨r, hfirst rfl, rfl⟩
          | false =>
            have hcode : r.code ≠ [] := fun h => hempty ⟨rfl, h⟩
            refine ⟨_, ?_, if_neg hcode⟩
            rfl
        have hleft : ¬ (first = false ∧ r.code = [] ∧
            ∃ ln' ∈ (ln :: lns).head?, (addrStr ln').isSome) := fun h => hempty ⟨h.1, h.2.1⟩
        rw [or_iff_right hleft]
        cases hvalue : hexValue str with
        | none =>
          have hline : r.line first ln = .error .invalidAddress := by
            rw [Reader.line, hstr, henter]
            simp only [bind, Except.bind, hvalue]
          simp [Reader.process, hline, Adjacent, hstr, hvalue]
        | some addr =>
          have hline : r.line first ln = .ok {r' with addr := addr} := by
            rw [Reader.line, hstr, henter]
            simp only [bind, Except.bind, hvalue]
          have hrest := ih false {r' with addr := addr} nofun
          simp only [Reader.process, hline, hrest, Adjacent, hstr, hvalue]
          simp [hcode']

/-- A written file is read, and a lookup is as expected at all addresses but the last one; the
last character of an empty string is read just where address lines follow each other. -/
theorem read_iff (es : Entries) (buf : List Char) :
    (∃ a2s, parse (addr2src [] (es.list.flatMap Entry.listing)) = .ok a2s ∧
      ∀ addr, lookup a2s addr = expected es.list addr ↔ addr ≠ lastAddr es.list) ∧
    (parse buf ≠ .error .lastOfEmpty ↔ ¬ Adjacent (lines buf)) := by
  refine ⟨written_read es, not_congr ?_⟩
  rw [parse_eq, process_lastOfEmpty _ _ _ fun _ => rfl]
  simp

/-- One entry. -/
def main : Entries where
  list := [⟨0x10000, ["int main()".toList], by decide, by decide, by decide, by decide⟩]
  distinct := List.pairwise_singleton _ _

/-- Its lookup has a second line; and addresses without source are too much. -/
theorem main_and_adjacent_fail :
    (∃ a2s, parse (addr2src [] (main.list.flatMap Entry.listing)) = .ok a2s ∧
      lookup a2s 0x10000 = "# int main()\n# ".toList ∧
        expected main.list 0x10000 = "# int main()".toList) ∧
    parse "[0001]:\n[0002]:\n".toList = .error .lastOfEmpty := by
  constructor
  · refine ⟨Reader.result (fun _ => none) (main.list.head nofun) [], ?_, rfl, rfl⟩
    rw [parse_eq, lines_addr2src]
    exact (Reader.process_first _ _).trans (Reader.process_entries [] _ _)
  · exact (parse_eq _).trans rfl

end RiscvSbt.Source
