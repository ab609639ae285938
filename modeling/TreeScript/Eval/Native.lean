import TreeScript.Eval.Resolve
import TreeScript.Operator.Apply

/-!
The functions of the core modules, and those a host program adds.
-/

set_option autoImplicit false

namespace TreeScript

/-- Fails unless the number of arguments lies between two bounds. -/
def expectArgs (name : String) (args : List CellRef) (least most : Nat) : Run Unit :=
  if args.length < least ∨ most < args.length then
    if least = most then
      Run.fail s!"{name}() expects {least} argument(s), but {args.length} were given"
    else
      Run.fail s!"{name}() expects {least} to {most} arguments, but {args.length} were given"
  else pure ()

/-- The type of an argument, or that of the empty value where none is given. -/
def argType (m : Machine) (args : List CellRef) (i : Nat) : String :=
  (args[i]?.map m.typeName).getD Kind.empty.name

def stringArg (name : String) (args : List CellRef) (i : Nat) : Run String := do
  let m ← get
  match args[i]?.map m.content with
  | some (.string s) => return s
  | _ =>
    let type := argType m args i
    Run.fail s!"{name}() expects a string as argument {i + 1}, got {type}"

def numberArg (name : String) (args : List CellRef) (i : Nat) : Run Decimal := do
  let m ← get
  match args[i]?.bind m.number? with
  | some d => return d
  | none =>
    let type := argType m args i
    Run.fail s!"{name}() expects a number as argument {i + 1}, got {type}"

namespace Native

/-! ### system -/

def printValues (args : List CellRef) : Run CellRef := do
  let m ← get
  say (" ".intercalate (args.map m.display) ++ "\n")
  newEmpty

/-- A symbol as the calling code sees it. -/
def lookUpFrom (site : Site) (name : String) : Run (Option CellRef) := do
  let m ← get
  return m.lookUpName site.frame name <|> m.global? site.context name

def runGetVariable (site : Site) (args : List CellRef) : Run CellRef := do
  expectArgs "getVariable" args 1 1
  let name ← stringArg "getVariable" args 0
  match ← lookUpFrom site name with
  | some cell => return cell
  | none => newEmpty

def runSetVariable (site : Site) (args : List CellRef) : Run CellRef := do
  expectArgs "setVariable" args 2 2
  let name ← stringArg "setVariable" args 0
  let value ← copy (← argument args 1)
  site.frame.put name value
  return value

def runRemoveVariable (site : Site) (args : List CellRef) : Run CellRef := do
  expectArgs "removeVariable" args 1 1
  let name ← stringArg "removeVariable" args 0
  let removed ← site.frame.remove name
  let isGlobal := ((← get).global? site.context name).isSome
  TreeScript.removeVariable site.context name
  newBoolean (removed || isGlobal)

/-- Calls the function bound to a name. The arguments are the remaining ones, or the values of an array
if that is all that remains. -/
def runCallByName (call : Call) (site : Site) (args : List CellRef) : Run CellRef := do
  if args.isEmpty then
    Run.fail "callFunctionByName() expects a function name"
  let name ← stringArg "callFunctionByName" args 0
  match ← lookUpFrom site name with
  | none => Run.fail s!"callFunctionByName(): no function named [{name}]"
  | some function =>
    let m ← get
    let rest := match args.drop 1 with
      | [only] =>
        match (m.tableOf? only).filter m.isArray with
        | some ref => (m.table ref).values
        | none => [only]
      | rest => rest
    call.invoke name function rest

/-- The symbols that the imports of the calling source bring in, under the names of the imports. -/
def runGetImports (site : Site) (args : List CellRef) : Run CellRef := do
  expectArgs "getImports" args 0 0
  let out ← newTable
  for i in ((← get).context site.context).imports do
    if let some ref := i.target then
      let symbols ← newTable
      for name in (((← get).module? ref).map (·.symbols)).getD [] do
        if let some cell := (← get).global? ref.context name then
          setText symbols name cell
      let moduleName := (← get).moduleName ref
      setText out (if i.inline then moduleName else i.key) (← newObject symbols)
  newObject out

/-! ### reflect -/

def runInherit (args : List CellRef) : Run CellRef := do
  expectArgs "inherit" args 2 2
  let target ← argument args 0
  TreeScript.inherit target (← argument args 1)
  return target

def runAccess (args : List CellRef) : Run CellRef := do
  expectArgs "access" args 2 2
  match ← TreeScript.access (← argument args 0) (← argument args 1) with
  | some cell => return cell
  | none => newEmpty

def runType (args : List CellRef) : Run CellRef := do
  expectArgs "type" args 1 1
  newString (argType (← get) args 0)

/-! ### math -/

/-- How many steps a number is away from the end of a walk, rounded down. It is negative past the end. -/
def stepsAhead (stop step : Decimal) (downwards : Bool) (n : Decimal) : Int :=
  let ahead := (stop.coeff * tenTo n.scale - n.coeff * tenTo stop.scale) * tenTo step.scale
  (if downwards then -ahead else ahead) / (step.coeff * (tenTo stop.scale * tenTo n.scale))

section

variable {stop step n : Decimal} {downwards : Bool}

theorem stepsAhead_nonneg (hstep : 0 < step.coeff)
    (h : (if downwards then stop.le n else n.le stop) = true) :
    0 ≤ stepsAhead stop step downwards n := by
  have hscales : 0 < step.coeff * (tenTo stop.scale * tenTo n.scale : Int) :=
    Int.mul_pos hstep (Int.mul_pos (natCast_tenTo_pos _) (natCast_tenTo_pos _))
  have hplaces := natCast_tenTo_pos step.scale
  refine Int.ediv_nonneg ?_ (Int.le_of_lt hscales)
  cases downwards with
  | false =>
    have hle := Decimal.le_iff_coeff.mp h
    exact Int.mul_nonneg (Int.sub_nonneg_of_le hle) (Int.le_of_lt hplaces)
  | true =>
    have hle := Decimal.le_iff_coeff.mp h
    change 0 ≤ -_
    rw [← Int.neg_mul, Int.neg_sub]
    exact Int.mul_nonneg (Int.sub_nonneg_of_le hle) (Int.le_of_lt hplaces)

theorem ediv_eq_sub_one {a b c d : Int} (hb : 0 < b) (hd : 0 < d) (h : a * d = (c - d) * b) :
    a / b = c / d - 1 := by
  rw [← Int.mul_ediv_mul_of_pos_left a b hd, h, Int.mul_comm b, Int.mul_ediv_mul_of_pos_left _ _ hb,
    Int.sub_eq_add_neg, ← Int.neg_one_mul, Int.add_mul_ediv_right _ _ (Int.ne_of_gt hd)]
  rfl

/-- A step takes a number one step closer to the end. -/
theorem stepsAhead_next (hstep : 0 < step.coeff) :
    stepsAhead stop step downwards (if downwards then n - step else n + step) =
      stepsAhead stop step downwards n - 1 := by
  have hscales (m : Nat) : 0 < step.coeff * (tenTo stop.scale * tenTo m : Int) :=
    Int.mul_pos hstep (Int.mul_pos (natCast_tenTo_pos _) (natCast_tenTo_pos _))
  refine ediv_eq_sub_one (hscales _) (hscales _) ?_
  -- Both quotients are over the scales of their numbers, which the sums of decimals reduce.
  cases downwards with
  | false =>
    have hadd := Decimal.add_coeff n step
    simp only [Bool.false_eq_true, if_false]
    grind
  | true =>
    have hsub := Decimal.sub_coeff n step
    simp only [if_true]
    grind

end

/-- The numbers from one on in steps, as long as they do not pass another one, behind those found so
far. Each step brings the end closer, because it is wider than nothing. -/
def numbersFrom (stop step : Decimal) (hstep : 0 < step.coeff) (downwards : Bool) (n : Decimal)
    (found : Array Decimal) : Array Decimal :=
  if (if downwards then stop.le n else n.le stop) then
    numbersFrom stop step hstep downwards (if downwards then n - step else n + step) (found.push n)
  else found
termination_by (stepsAhead stop step downwards n + 1).toNat
decreasing_by
  rename_i h
  simp only [dite_eq_ite] at h ⊢
  have hahead := stepsAhead_nonneg hstep h
  rw [stepsAhead_next hstep]
  omega

/-- The numbers from one to another in steps, downwards if the first is the greater. -/
def numberRange (start stop step : Decimal) (hstep : 0 < step.coeff) : List Decimal :=
  (numbersFrom stop step hstep (stop.lt start) start #[]).toList

/-- The character of a code, or the replacement sign if there is none. -/
def charText (code : Int) : String :=
  if 0 ≤ code ∧ code.toNat.isValidChar then (Char.ofNat code.toNat).toString else "\ufffd"

/-- The codes from one on in steps, as long as they do not pass another one. Codes are 32 bit words, and a
step that leaves them comes in again at the other end; the fuel bounds the number of steps. -/
def charCodes (stop step : Int) (downwards : Bool) : Nat → Int → Array Int → Option (Array Int)
  | 0, _, _ => none
  | fuel + 1, code, found =>
    if (if downwards then stop ≤ code else code ≤ stop) then
      let next := (if downwards then code - step else code + step).bmod (twoTo 32)
      charCodes stop step downwards fuel next (found.push code)
    else some found

/-- The characters from one to another in steps, if they come to an end. -/
def charRange (start stop : Char) (step : Int) : Option (List String) :=
  (charCodes stop.toNat step (stop < start) (twoTo 32 + 1) start.toNat #[]).map fun codes =>
    codes.toList.map charText

/-- The range between two arguments with a given step. -/
def rangeBy (args : List CellRef) (step : Decimal) (hstep : 0 < step.coeff) : Run CellRef := do
  let m ← get
  match args[0]?.bind m.number?, args[1]?.bind m.number? with
  | some start, some stop => newArray (← (numberRange start stop step hstep).mapM newNumber)
  | some _, none => Run.fail "range() expects 2 numbers or 2 one-character strings"
  | none, _ =>
    match args[0]?.map m.content, args[1]?.map m.content with
    | some (.string s), some (.string t) =>
      match s.toList, t.toList with
      | [start], [stop] =>
        if !step.isWhole then
          Run.fail "range() over characters expects a whole step size"
        match charRange start stop step.halfWord with
        | some texts => newTextArray texts
        | none => throw .outOfFuel
      | _, _ => Run.fail "range() expects 2 one-character strings"
    | _, _ => Run.fail "range() expects 2 numbers or 2 one-character strings"

def runRange (args : List CellRef) : Run CellRef := do
  expectArgs "range" args 2 3
  let step ← if args.length = 3 then Decimal.abs <$> numberArg "range" args 2
    else pure (Decimal.ofInt 1)
  if hstep : 0 < step.coeff then rangeBy args step hstep
  else Run.fail "range() expects a non-zero step size"

/-- Evenly spaced numbers from one to another. -/
def runSpace (call : Call) (args : List CellRef) : Run CellRef := do
  expectArgs "space" args 3 3
  let start ← numberArg "space" args 0
  let stop ← numberArg "space" args 1
  let count ← numberArg "space" args 2
  if !count.isWhole || count.sign ≤ 0 then
    Run.fail s!"space() expects a positive whole count, got {count.text}"
  let n := count.word.toNat
  if n = 1 then
    return ← newArray [← newNumber start]
  let width ← Run.ofNumber ((stop - start).divide (Decimal.ofInt (n - 1 : Nat)) call.scale)
  let inner := (List.range (n - 1)).map fun (i : Nat) => start + width * Decimal.ofInt i
  newArray (← (inner ++ [stop]).mapM newNumber)

def runToNumber (args : List CellRef) : Run CellRef := do
  expectArgs "toNumber" args 1 1
  let cell ← argument args 0
  match ← content cell with
  | .number _ => return cell
  | .boolean b => newNumber (Decimal.ofInt (if b then 1 else 0))
  | .string s => parseNumber (Text.trim s)
  | other =>
    let type := other.typeName
    Run.fail s!"toNumber() cannot convert a value of type {type}"

def runRound (args : List CellRef) : Run CellRef := do
  expectArgs "round" args 1 2
  let d ← numberArg "round" args 0
  let places ← if args.length = 2 then numberArg "round" args 1 else pure (Decimal.ofInt 0)
  newNumber (d.round places.halfWord)

def runExact (name : String) (compute : Decimal → Decimal) (args : List CellRef) : Run CellRef := do
  expectArgs name args 1 1
  newNumber (compute (← numberArg name args 0))

/-- A function that is computed with doubles and rounded to the division scale. -/
def runReal (call : Call) (name : String) (compute : Float → Float) (args : List CellRef) :
    Run CellRef := do
  expectArgs name args 1 1
  let d ← numberArg name args 0
  let x := compute d.toDouble
  if !Decimal.isReal x then
    Run.fail s!"{name}({d.text}) is not a real number"
  newNumber ((Decimal.ofDouble x).round call.scale)

/-! ### debug -/

/-- Sets the symbols that are shown with every stack trace. -/
def runStackTraceValues (site : Site) (args : List CellRef) : Run CellRef := do
  let m ← get
  let names := args.map m.display
  modifyTrace site.frame.trace fun trace => { trace with debugValues := names }
  newEmpty

/-- The greatest style of evaluation trace. -/
def maxTraceStyle : Int := 3

/-- Sets a logging option, or toggles it if no setting is given. -/
def switchOption (args : List CellRef) (current : Options → Bool)
    (change : Bool → Options → Options) : Run CellRef := do
  let m ← get
  let setting := (args[1]?.map m.isTrue).getD (!current m.options)
  modify fun m => { m with options := change setting m.options }
  newBoolean setting

def runTrace (args : List CellRef) : Run CellRef := do
  expectArgs "trace" args 1 2
  match ← stringArg "trace" args 0 with
  | "interpreter" =>
    if args.length ≠ 2 then
      Run.fail s!"trace(\"interpreter\") expects a style between 0 and {maxTraceStyle}"
    let style := (← numberArg "trace" args 1).word
    if style < 0 ∨ maxTraceStyle < style then
      Run.fail s!"trace style must be between 0 and {maxTraceStyle}, got {style}"
    modify fun m => { m with options := { m.options with trace := style } }
    newEmpty
  | "resolve" => switchOption args (·.logResolve) fun b options => { options with logResolve := b }
  | "assignments" =>
    switchOption args (·.logAssignments) fun b options => { options with logAssignments := b }
  | "calls" => switchOption args (·.logCalls) fun b options => { options with logCalls := b }
  | flag => Run.fail ("Unknown debugger flag: " ++ flag)

/-! ### host -/

/-- The site that calls fall back to when they come from nowhere: the source loaded last. -/
def lastSite? (m : Machine) : Option Site :=
  m.loaded.back?.map fun context => { context, frame := (m.context context).frame }

def runHost (interp : Interp) (call : Call) (function : HostFunction) (args : List CellRef) :
    Run CellRef := do
  match function, args with
  | .twice, [n] =>
    match (← get).number? n with
    | some d => newNumber (d + d)
    | none => Run.fail "twice expects a number"
  | .twice, _ => Run.fail "twice expects a number"
  | .fail, _ => Run.fail s!"host failure with {args.length} argument(s)"
  | .failTyped, _ => throw (.untraced .construction "typed failure")
  | .nothing, _ => newEmpty
  | .invoke, f :: rest => call.invoke "invoke" f rest
  | .invoke, [] => Run.fail "invoke expects a function"
  | .bare, f :: rest =>
    match lastSite? (← get) with
    | some site => interp.call site "bare" .none f rest
    | none => Run.fail "cannot call bare: no context loaded"
  | .bare, [] => Run.fail "bare expects a function"

/-- Calls a native function from a site. -/
def run (interp : Interp) (site : Site) (call : Call) (function : Native) (args : List CellRef) :
    Run CellRef :=
  match function with
  | print => printValues args
  | getVariable => runGetVariable site args
  | setVariable => runSetVariable site args
  | removeVariable => runRemoveVariable site args
  | callFunctionByName => runCallByName call site args
  | getImports => runGetImports site args
  | inherit => runInherit args
  | access => runAccess args
  | typeName => runType args
  | range => runRange args
  | space => runSpace call args
  | toNumber => runToNumber args
  | round => runRound args
  | floor => runExact "floor" Decimal.floor args
  | ceil => runExact "ceil" Decimal.ceil args
  | abs => runExact "abs" Decimal.abs args
  | sqrt => runReal call "sqrt" Float.sqrt args
  | sin => runReal call "sin" Float.sin args
  | cos => runReal call "cos" Float.cos args
  | tan => runReal call "tan" Float.tan args
  | stackTraceValues => runStackTraceValues site args
  | trace => runTrace args
  | operator symbol fixity => Operator.standard.evaluate call symbol fixity args
  | host function => runHost interp call function args

end Native

end TreeScript
