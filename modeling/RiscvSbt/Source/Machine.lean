import RiscvSbt.Library.Text
import Mathlib.Logic.Function.Basic

/-! The map from addresses to source lines: its writer (`addr2src` in `build.py`) and its reader
(`AddressToSource`).

Text is a list of characters. The writer gets the lines of a listing, of which a pattern tells it
those that start with an instruction's address. -/
namespace RiscvSbt.Source
open Library

/-! ### Writer -/

/-- A line of a listing, without its newline: an instruction's, with its address, or another. -/
inductive Ln where
  | addr (addr : Nat)
  | src (ln : List Char)

/-- `"[{:04X}]:\n"`. -/
def header (addr : Nat) : List Char := '[' :: hex4 addr ++ [']', ':', '\n']

/-- What is written from here on, `lns` being the lines since the last address. -/
def addr2src (lns : List (List Char)) : List Ln → List Char
  | [] => []
  | .addr addr :: fin =>
    if lns = [] then addr2src [] fin
    else header addr ++ lns.flatMap (· ++ ['\n']) ++ addr2src [] fin
  | .src ln :: fin => addr2src (lns ++ [ln]) fin

/-! ### Reader -/

abbrev A2S := Nat → Option (List Char)

/-- The first one stays. -/
def insert (a2s : A2S) (addr : Nat) (code : List Char) : A2S :=
  if a2s addr = none then Function.update a2s addr (some code) else a2s

def lookup (a2s : A2S) (addr : Nat) : List Char := (a2s addr).getD []

/-- The address between the brackets, if a line is one of an address. -/
def addrStr (ln : List Char) : Option (List Char) :=
  match find ln '[' 0, find ln ']' 0, find ln ':' 0 with
  | some ob, some cb, some cl =>
    if ob = 0 ∧ cb - ob < 10 ∧ cl = cb + 1 ∧ cl + 2 = ln.length then
      some (substr ln (ob + 1) (some (cb - ob - 1)))
    else none
  | _, _, _ => none

inductive Fault where
  /-- The last character of an empty string is read. -/
  | lastOfEmpty
  | invalidAddress

structure Reader where
  addr : Nat := 0
  code : List Char := []
  a2s : A2S := fun _ => none

namespace Reader

/-- Enters the code of the last address, without its last newline. -/
def flush (r : Reader) : Except Fault Reader :=
  if r.code = [] then .error .lastOfEmpty
  else
    let code := if r.code.getLast? = some '\n' then r.code.dropLast else r.code
    .ok {r with a2s := insert r.a2s r.addr code, code := []}

/-- Before the first line there is nothing to enter. -/
def enter (r : Reader) (first : Bool) : Except Fault Reader := if first then .ok r else r.flush

def line (r : Reader) (first : Bool) (ln : List Char) : Except Fault Reader :=
  match addrStr ln with
  | some str => do
    let r ← r.enter first
    match hexValue str with
    | none => .error .invalidAddress
    | some addr => .ok {r with addr := addr}
  | none => .ok {r with code := r.code ++ ((if ln.length = 1 then ['#'] else ['#', ' ']) ++ ln)}

def finish (r : Reader) : A2S := if r.code = [] then r.a2s else insert r.a2s r.addr r.code

/-- The lines from `idx` on. -/
def loop (buf : List Char) (idx : Nat) (r : Reader) : Except Fault A2S :=
  let pos := find buf '\n' idx
  let n := pos.map fun pos => pos - idx + 1
  match r.line (idx = 0) (substr buf idx n) with
  | .error fault => .error fault
  | .ok r =>
    match hpos : pos with
    | none => .ok r.finish
    | some pos => loop buf (idx + (pos - idx + 1)) r
termination_by buf.length - idx
decreasing_by
  obtain ⟨l, rest, hdrop, -, hlen⟩ := find_some hpos
  have := congrArg List.length hdrop
  simp at this
  omega

end Reader

def parse (buf : List Char) : Except Fault A2S := Reader.loop buf 0 {}

end RiscvSbt.Source
