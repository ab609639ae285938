import TreeScript.Pattern.Parser

/-!
Matching. An expression becomes a list of instructions, and a match is found by running all threads
of the program side by side over the text, those that come first in the expression's order of
preference ahead of the others. A thread that reaches acceptance cuts off the threads behind it.
-/

set_option autoImplicit false

namespace TreeScript.Pattern

inductive Instr where
  /-- Consumes a character of the set and goes on with the next instruction. -/
  | char (set : CharSet)
  | anchor (kind : Anchor)
  /-- Notes the current place in a slot. -/
  | save (slot : Nat)
  /-- Tries the first address, then the second. -/
  | split (first second : Nat)
  | jump (target : Nat)
  | accept
deriving Inhabited

/-- Two addresses in the order a greedy or a reluctant repetition tries them. -/
def Instr.choice (greedy : Bool) (again leave : Nat) : Instr :=
  if greedy then .split again leave else .split leave again

namespace Expr

/-- Whether an expression can match without consuming anything. -/
def nullable : Expr → Bool
  | .empty | .anchor _ | .star .. | .optional .. => true
  | .char _ => false
  | .capture _ body | .plus body _ => body.nullable
  | .repeat body least _ _ => least == 0 || body.nullable
  | .concat left right => left.nullable && right.nullable
  | .alternate left right => left.nullable || right.nullable

/-- An expression a number of times in a row. -/
def copies (body : Expr) : Nat → Expr
  | 0 => .empty
  | 1 => body
  | n + 1 => .concat (copies body n) body

/-- At most a number of times, each further time nested in the one before. -/
def upToTimes (body : Expr) (greedy : Bool) : Nat → Expr
  | 0 => .empty
  | 1 => .optional body greedy
  | n + 1 => .optional (.concat body (upToTimes body greedy n)) greedy

/-- Writes counted repetitions out in terms of the other operators. -/
def expand : Expr → Expr
  | .capture number body => .capture number body.expand
  | .star body greedy => .star body.expand greedy
  | .plus body greedy => .plus body.expand greedy
  | .optional body greedy => .optional body.expand greedy
  | .concat left right => .concat left.expand right.expand
  | .alternate left right => .alternate left.expand right.expand
  | .repeat body least most greedy =>
    let body := body.expand
    match most with
    | none =>
      match least with
      | 0 => .star body greedy
      | n + 1 => if n = 0 then .plus body greedy else .concat (copies body n) (.plus body greedy)
    | some most =>
      if most = least then copies body least
      else if least = 0 then upToTimes body greedy most
      else .concat (copies body least) (upToTimes body greedy (most - least))
  | e => e

/-- The instructions of an expression when the first one has address `pc`; control leaves them at
the end. A repetition of something that may be empty runs it once before deciding to go on, so that
an empty pass keeps its place in the order of preference. -/
def instructions (pc : Nat) : Expr → List Instr
  | .empty => []
  | .char set => [.char set]
  | .anchor kind => [.anchor kind]
  | .capture number body =>
    .save (2 * number) :: instructions (pc + 1) body ++ [.save (2 * number + 1)]
  | .star body greedy =>
    let code := instructions (pc + 1) body
    if body.nullable then
      .choice greedy (pc + 1) (pc + code.length + 2) :: code ++
        [.choice greedy (pc + 1) (pc + code.length + 2)]
    else .choice greedy (pc + 1) (pc + code.length + 2) :: code ++ [.jump pc]
  | .plus body greedy =>
    let code := instructions pc body
    code ++ [.choice greedy pc (pc + code.length + 1)]
  | .optional body greedy =>
    let code := instructions (pc + 1) body
    .choice greedy (pc + 1) (pc + code.length + 1) :: code
  | .repeat body _ _ _ => instructions pc body
  | .concat left right =>
    let code := instructions pc left
    code ++ instructions (pc + code.length) right
  | .alternate left right =>
    let code := instructions (pc + 1) left
    let other := instructions (pc + code.length + 2) right
    .split (pc + 1) (pc + code.length + 2) :: code ++
      .jump (pc + code.length + 2 + other.length) :: other

end Expr

/-- A compiled pattern: its instructions, the names of its captures and the text it came from. -/
structure Program where
  code : Array Instr
  names : List String
  source : String

namespace Program

def compile (text : String) : Except SyntaxError Program := do
  let parsed ← parse text
  let body : Expr := .capture 0 parsed.expr.expand
  return ⟨(Expr.instructions 0 body ++ [Instr.accept]).toArray, parsed.names, text⟩

/-- The places noted by a thread: slots `2n` and `2n + 1` delimit capture `n`. -/
abbrev Slots := Array (Option Nat)

structure Thread where
  pc : Nat
  slots : Slots

def isWordChar (c : Option Char) : Bool := c.any (CharSet.word.has ·)

/-- Whether a condition holds between two neighbouring characters. -/
def holds (kind : Anchor) (before after : Option Char) : Bool :=
  match kind with
  | .beginText => before.isNone
  | .endText => after.isNone
  | .beginLine => before.isNone || before == some '\n'
  | .endLine => after.isNone || after == some '\n'
  | .wordBoundary => isWordChar before != isWordChar after
  | .noWordBoundary => isWordChar before == isWordChar after

def charAt (text : Array Char) (place : Nat) : Option Char := text[place]?

def charBefore (text : Array Char) (place : Nat) : Option Char :=
  if place = 0 then none else text[place - 1]?

/-- Adds the threads an address leads to without consuming anything, in order of preference.
Addresses that were reached before at this place are passed over. -/
def reach (program : Program) (text : Array Char) (place : Nat) :
    Nat → Nat → Slots → List Nat × List Thread → List Nat × List Thread
  | 0, _, _, found => found
  | fuel + 1, pc, slots, (seen, threads) =>
    if seen.contains pc then (seen, threads)
    else
      let seen := pc :: seen
      match program.code[pc]? with
      | none => (seen, threads)
      | some (.jump target) => reach program text place fuel target slots (seen, threads)
      | some (.split first second) =>
        reach program text place fuel second slots
          (reach program text place fuel first slots (seen, threads))
      | some (.save slot) =>
        reach program text place fuel (pc + 1) (slots.setIfInBounds slot (some place)) (seen, threads)
      | some (.anchor kind) =>
        if holds kind (charBefore text place) (charAt text place) then
          reach program text place fuel (pc + 1) slots (seen, threads)
        else (seen, threads)
      | some (.char _) | some .accept => (seen, ⟨pc, slots⟩ :: threads)

/-- Lets the threads consume the character at a place, in order of preference, up to the first one
that accepts. -/
def advance (program : Program) (text : Array Char) (place : Nat) :
    List Thread → List Nat × List Thread → Option Slots × List Thread
  | [], (_, next) => (none, next.reverse)
  | thread :: threads, (seen, next) =>
    match program.code[thread.pc]? with
    | some .accept => (some thread.slots, next.reverse)
    | some (.char set) =>
      if (charAt text place).any (set.has ·) then
        advance program text place threads
          (reach program text (place + 1) (program.code.size + 1) (thread.pc + 1) thread.slots
            (seen, next))
      else advance program text place threads (seen, next)
    | _ => advance program text place threads (seen, next)

/-- Runs the threads to the end of the text. The last acceptance is the preferred one. -/
def runThreads (program : Program) (text : Array Char) :
    Nat → Nat → List Thread → Option Slots → Option Slots
  | 0, _, _, best => best
  | _, _, [], best => best
  | fuel + 1, place, threads, best =>
    let (accepted, next) := advance program text place threads ([], [])
    runThreads program text fuel (place + 1) next (accepted.orElse fun _ => best)

def matchAt (program : Program) (text : Array Char) (place : Nat) : Option Slots :=
  let slots : Slots := Array.replicate (2 * (program.names.length + 1)) none
  let (_, threads) := reach program text place (program.code.size + 1) 0 slots ([], [])
  runThreads program text (text.size + 2 - place) place threads.reverse none

/-- The leftmost match that starts at `place` or later; `tries` places are tried. -/
def findFrom (program : Program) (text : Array Char) : Nat → Nat → Option Slots
  | 0, _ => none
  | tries + 1, place =>
    match matchAt program text place with
    | some slots => some slots
    | none => findFrom program text tries (place + 1)

def find (program : Program) (text : Array Char) (place : Nat) : Option Slots :=
  findFrom program text (text.size + 1 - place) place

def span (slots : Slots) : Nat × Nat := ((slots[0]?.join).getD 0, (slots[1]?.join).getD 0)

def isMatch (program : Program) (s : String) : Bool := (find program s.toList.toArray 0).isSome

end Program

end TreeScript.Pattern
