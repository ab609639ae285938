import TreeScript.Proofs.Iteration.Texts

/-!
# Sharing an iterator

Several consumers may draw from one iterator: calls of `hasNext` and `next`, `for` loops that a
`break` or a `return` ends early, calls of `forEach` that fail midway. They come in any order, and one
within another, since a body or a callback may use the iterator it is called for. `HandsOut` lists the
elements that they hand out between them, in the order in which they do. An element that the iterator
has taken to answer `hasNext` is handed out by whoever comes next, so what was left in the iterator is
what they hand out and what is left in it then (`HandsOut.remaining_eq`): nothing is lost, and nothing
is handed out twice.

A loop draws an element for each of its turns (`turnsFrom`), and it is over after a turn that ends it
or fails. The statement hands the element to its variable, as a copy (`forTurn_apply`), and the method
to its callback, as the argument it calls it with (`forEachTurn_apply`).
-/

set_option autoImplicit false

namespace TreeScript

/-! ### Turns -/

section

variable {σ : Type} {ref : IteratorRef} {act : σ → CellRef → Run (Bool × σ)}

/-- The turns of a loop with the elements left in an iterator, of which there are at most `count`, up
to where it is over. The last of them may have ended the loop or failed. -/
def turnsFrom (ref : IteratorRef) (act : σ → CellRef → Run (Bool × σ)) :
    ℕ → σ → Machine → List (Turn CellRef)
  | 0, _, _ => []
  | count + 1, s, m =>
    match next? ref m with
    | .ok (some element) n =>
      ⟨n, element, Outcome.final (act s element n)⟩ ::
        match act s element n with
        | .ok (false, s') k => turnsFrom ref act count s' k
        | _ => []
    | _ => []

/-- The elements of some turns, each with what was handed out during the turn behind it. -/
def handedOut (turns : List (Turn CellRef)) (during : Turn CellRef → List CellRef) : List CellRef :=
  turns.flatMap fun turn ↦ turn.element :: during turn

theorem handedOut_cons (turn : Turn CellRef) (turns : List (Turn CellRef))
    (during : Turn CellRef → List CellRef) :
    handedOut (turn :: turns) during = turn.element :: (during turn ++ handedOut turns during) :=
  List.flatMap_cons

theorem Outcome.final_map {α β : Type} (f : α → β) (x : Run α) (m : Machine) :
    Outcome.final ((f <$> x) m) = Outcome.final (x m) := by
  rw [map_eq_pure_bind]
  cases hx : x m with
  | ok => rw [Run.bind_ok hx]; rfl
  | error => rw [Run.bind_error hx]; rfl

/-- Every turn of a loop is one of its action, whatever state the loop is in. -/
theorem after_of_turnsFrom {count : ℕ} {s : σ} {m : Machine} {turn : Turn CellRef}
    (hturn : turn ∈ turnsFrom ref act count s m) :
    ∃ s', turn.after = Outcome.final (act s' turn.element turn.before) := by
  induction count generalizing s m with
  | zero => cases hturn
  | succ count ih =>
    rw [turnsFrom] at hturn
    split at hturn
    · rcases List.mem_cons.mp hturn with rfl | hlater
      · exact ⟨s, rfl⟩
      · split at hlater
        · exact ih hlater
        · cases hlater
    · cases hturn

/-- Assumes: turns in which the iterator loses what is handed out during them. With a loop of these
turns it loses their elements besides. -/
theorem remaining_drawAll {during : Turn CellRef → List CellRef} {count : ℕ} {s : σ} {m : Machine}
    (hturns : ∀ turn ∈ turnsFrom ref act count s m,
      turn.before.remaining ref = during turn ++ turn.after.remaining ref) :
    m.remaining ref = handedOut (turnsFrom ref act count s m) during ++
      (Outcome.final (drawAll ref act count s m)).remaining ref := by
  induction count generalizing s m with
  | zero => rfl
  | succ count ih =>
    obtain ⟨it, hit, hnext⟩ := Machine.next?_eq ref m
    have hrest := Machine.remaining_drawn hit
    generalize m.withIterator ref it = n at hnext hrest
    cases hremaining : m.remaining ref with
    | nil =>
      rw [hremaining] at hnext hrest
      rw [turnsFrom, drawAll, Run.bind_ok hnext, hnext]
      exact hrest.symm
    | cons element rest =>
      rw [hremaining] at hnext hrest
      rw [turnsFrom, hnext] at hturns ⊢
      rw [drawAll, Run.bind_ok hnext]
      dsimp only [List.head?_cons] at hturns ⊢
      obtain ⟨hfirst, hlater⟩ := List.forall_mem_cons.mp hturns
      rw [hrest, List.tail_cons] at hfirst
      rw [handedOut_cons, List.cons_append, List.append_assoc, hfirst]
      refine congrArg (fun later ↦ element :: (during _ ++ later)) ?_
      cases hact : act s element n with
      | error e k =>
        rw [Run.bind_error hact]
        rfl
      | ok answer k =>
        obtain ⟨ended, s'⟩ := answer
        rw [Run.bind_ok hact]
        rw [hact] at hlater
        cases ended with
        | true => rfl
        | false => exact ih hlater

end

/-! ### The loops of the language -/

section

variable {ref : IteratorRef} {m n : Machine} {cell element : CellRef}

/-- The turns of a `for` loop over an iterator, from the machine on which the iterator was found. -/
def forTurns (interp : Interp) (site : Site) (name : String) (body : Node) (ref : IteratorRef)
    (m : Machine) : List (Turn CellRef) :=
  turnsFrom ref (forTurn interp site [name] body) (m.remaining ref).length
    { value := ⟨m.cells.size⟩ } (m.withCell .empty)

/-- The turns of a call of `forEach` on an iterator. -/
def forEachTurns (call : Call) (self function : CellRef) (ref : IteratorRef) (m : Machine) :
    List (Turn CellRef) :=
  turnsFrom ref (forEachTurn call self function (m.content function).paramCount?)
    (m.remaining ref).length ⟨m.cells.size⟩ (m.withCell .empty)

/-- An iterator is its own iterator. -/
theorem makeIterator_iterator (hcell : m.content cell = .iterator ref) :
    makeIterator cell m = .ok cell m := by
  have hread : content cell m = .ok (.iterator ref) m := congrArg (EStateM.Result.ok · m) hcell
  have hiterated : iterate cell m = .ok (some cell) m := by
    unfold iterate
    rw [Run.bind_ok hread]
    rfl
  unfold makeIterator
  rw [Run.bind_ok hiterated]
  rfl

/-- A `for` loop over an iterator draws from it. -/
theorem forLoop_final {interp : Interp} {site : Site} {names : List String} {iterable body : Node}
    (hvalue : interp.value site iterable .required m = .ok cell n)
    (hcell : n.content cell = .iterator ref) :
    Outcome.final (interp.forLoop site names iterable body m) =
      Outcome.final (drawAll ref (forTurn interp site names body) (n.remaining ref).length
        { value := ⟨n.cells.size⟩ } (n.withCell .empty)) := by
  have hread : content cell n = .ok (.iterator ref) n := congrArg (EStateM.Result.ok · n) hcell
  have hempty : newEmpty n = .ok ⟨n.cells.size⟩ (n.withCell .empty) := rfl
  unfold Interp.forLoop
  rw [Run.bind_ok hvalue, Run.bind_ok (Run.traced_ok site _ (makeIterator_iterator hcell)),
    Run.bind_ok hread]
  change Outcome.final ((newEmpty >>= fun value ↦ interp.forElements site names body ref
    (n.remaining ref).length { value }) n) = _
  rw [Run.bind_ok hempty, forElements_eq, Outcome.final_map]

/-- A call of `forEach` on an iterator draws from it. -/
theorem forEach_final {call : Call} {function : CellRef} {rest : List CellRef}
    (hcell : m.content cell = .iterator ref) :
    Outcome.final (Method.run call (.common .forEach) cell (function :: rest) m) =
      Outcome.final (drawAll ref (forEachTurn call cell function (m.content function).paramCount?)
        (m.remaining ref).length ⟨m.cells.size⟩ (m.withCell .empty)) := by
  have hread : content cell m = .ok (.iterator ref) m := congrArg (EStateM.Result.ok · m) hcell
  have hempty : newEmpty m = .ok ⟨m.cells.size⟩ (m.withCell .empty) := rfl
  change Outcome.final ((makeIterator cell >>= fun iterator ↦ _) m) = _
  rw [Run.bind_ok (makeIterator_iterator hcell), Run.bind_ok hread]
  change Outcome.final ((newEmpty >>= fun value ↦ CommonMethod.forElements call cell function
    (m.content function).paramCount? ref (m.remaining ref).length value) m) = _
  rw [Run.bind_ok hempty, forEach_eq, Outcome.final_map]

/-- Assumes: an element that is no object. Its turn of a `for` loop runs the body where the variable
names a copy of it, and does nothing else with the iterator. -/
theorem forTurn_apply (interp : Interp) (site : Site) (name : String) (body : Node)
    (last : Completion) (hplain : m.tableOf? element = none) : ∃ inner copied n,
      forTurn interp site [name] body last element m = interp.pass inner body n ∧
      n.lookUpName inner.frame name = some copied ∧ n.content copied = m.content element ∧
      n.iterators = m.iterators := by
  let inner : Site :=
    { site with frame := ⟨⟨m.scopes.size⟩, site.frame.scopes, site.frame.trace, false⟩ }
  let forked : Machine := { m with scopes := m.scopes.push {} }
  let copied := forked.withCell (m.content element)
  let bound : Machine :=
    { copied with scopes := copied.scopes.modify m.scopes.size (·.insert name ⟨m.cells.size⟩) }
  have hfork : site.fork m = .ok inner forked := rfl
  have hbind : Interp.bindElement [name] element inner.frame forked = .ok () bound := by
    unfold Interp.bindElement
    rw [Run.get_bind]
    have hnone : forked.tableOf? element = none := hplain
    rw [hnone]
    rfl
  have hscope : (bound.scope ⟨m.scopes.size⟩)[name]? = some ⟨m.cells.size⟩ := by
    change (((m.scopes.push {}).modify m.scopes.size _)[m.scopes.size]?.getD {})[name]? = _
    rw [Array.getElem?_modify, if_pos rfl, Array.getElem?_push_size]
    exact Std.TreeMap.getElem?_insert_self
  refine ⟨inner, ⟨m.cells.size⟩, bound, ?_, ?_, ?_, rfl⟩
  · unfold forTurn
    rw [Run.bind_ok hfork, Run.bind_ok (Run.traced_ok site _ hbind)]
  · change List.findSome? _ (_ :: _) = _
    rw [List.findSome?_cons, hscope]
  · exact forked.content_new _

/-- Assumes: an element that is no object. Its turn of `forEach` calls the callback with it. -/
theorem forEachTurn_apply (call : Call) (self function : CellRef) (params : Option ℕ)
    (last : CellRef) (hplain : m.tableOf? element = none) :
    forEachTurn call self function params last element m =
      (do return (false, ← call.invoke "forEach" function [element])) m := by
  unfold forEachTurn
  rw [Run.get_bind]
  unfold CommonMethod.elementArgs
  rw [hplain]

end

/-! ### Consumers -/

/-- What happens between two machines hands out elements of an iterator, in an order. It consists of
calls of `hasNext` and `next`, of `for` loops with one variable and calls of `forEach`, and of what
leaves alone what is left in the iterator. A loop may end in any way, and what happens during its turns
hands out elements as well. -/
inductive HandsOut (ref : IteratorRef) : Machine → List CellRef → Machine → Prop
  | elsewhere {m n : Machine} (hsame : n.remaining ref = m.remaining ref) : HandsOut ref m [] n
  | trans {m n k : Machine} {first second : List CellRef} (hfirst : HandsOut ref m first n)
      (hsecond : HandsOut ref n second k) : HandsOut ref m (first ++ second) k
  | hasNext {m : Machine} {iterator : CellRef} (hiterator : m.content iterator = .iterator ref)
      (call : Call) (args : List CellRef) :
      HandsOut ref m [] (Outcome.final (Method.run call (.iterator .hasNext) iterator args m))
  | next {m n : Machine} {iterator item : CellRef} {call : Call} {args : List CellRef}
      (hiterator : m.content iterator = .iterator ref)
      (hnext : Method.run call (.iterator .next) iterator args m = .ok item n) :
      HandsOut ref m [item] n
  | nextFails {m n : Machine} {iterator : CellRef} {call : Call} {args : List CellRef} {e : Failure}
      (hiterator : m.content iterator = .iterator ref)
      (hnext : Method.run call (.iterator .next) iterator args m = .error e n) :
      HandsOut ref m [] n
  | forLoop {m n : Machine} {iterator : CellRef} {interp : Interp} {site : Site} {name : String}
      {iterable body : Node} {former : List CellRef} {during : Turn CellRef → List CellRef}
      (hvalue : interp.value site iterable .required m = .ok iterator n)
      (hformer : HandsOut ref m former n) (hiterator : n.content iterator = .iterator ref)
      (hturns : ∀ turn ∈ forTurns interp site name body ref n,
        HandsOut ref turn.before (during turn) turn.after) :
      HandsOut ref m (former ++ handedOut (forTurns interp site name body ref n) during)
        (Outcome.final (interp.forLoop site [name] iterable body m))
  | forEach {m : Machine} {iterator function : CellRef} {call : Call} {rest : List CellRef}
      {during : Turn CellRef → List CellRef} (hiterator : m.content iterator = .iterator ref)
      (hturns : ∀ turn ∈ forEachTurns call iterator function ref m,
        HandsOut ref turn.before (during turn) turn.after) :
      HandsOut ref m (handedOut (forEachTurns call iterator function ref m) during)
        (Outcome.final (Method.run call (.common .forEach) iterator (function :: rest) m))

section

variable {ref : IteratorRef} {m n : Machine} {iterator : CellRef} {handed : List CellRef}

/-- The method `next` answers the first element that is left, if there is one. -/
theorem value?_next (call : Call) (args : List CellRef)
    (hiterator : m.content iterator = .iterator ref) :
    Outcome.value? (Method.run call (.iterator .next) iterator args m) =
      (m.remaining ref).head? := by
  obtain ⟨n, -, -, hdrawn⟩ := next_apply call args hiterator
  rw [hdrawn]
  cases (m.remaining ref).head? <;> rfl

/-- What was left in an iterator is what is handed out, and then what is left in it. -/
theorem HandsOut.remaining_eq (h : HandsOut ref m handed n) :
    m.remaining ref = handed ++ n.remaining ref := by
  induction h with
  | elsewhere hsame => exact hsame.symm
  | trans _ _ ihfirst ihsecond => rw [ihfirst, ihsecond, List.append_assoc]
  | hasNext hiterator call args =>
    obtain ⟨answer, n, hasked, -, hleft, -⟩ := hasNext_apply call args hiterator
    rw [hasked]
    exact hleft.symm
  | @next m n iterator item call args hiterator hnext =>
    obtain ⟨k, hrest, -, hdrawn⟩ := next_apply call args hiterator
    rw [hnext] at hdrawn
    cases hremaining : m.remaining ref with
    | nil =>
      rw [hremaining] at hdrawn
      cases hdrawn
    | cons first rest =>
      rw [hremaining] at hdrawn hrest
      cases hdrawn
      rw [hrest]
      rfl
  | @nextFails m n iterator call args e hiterator hnext =>
    obtain ⟨k, hrest, -, hdrawn⟩ := next_apply call args hiterator
    rw [hnext] at hdrawn
    cases hremaining : m.remaining ref with
    | nil =>
      rw [hremaining] at hdrawn hrest
      cases hdrawn
      exact hrest.symm
    | cons first rest =>
      rw [hremaining] at hdrawn
      cases hdrawn
  | forLoop hvalue _ hiterator _ ihformer ihturns =>
    rw [ihformer, forLoop_final hvalue hiterator, List.append_assoc]
    exact congrArg (_ ++ ·) (remaining_drawAll ihturns)
  | forEach hiterator _ ihturns =>
    rw [forEach_final hiterator]
    exact remaining_drawAll ihturns

end

/-- Iterators over lists. Whatever consumers of an iterator do, what they hand out is, in this order,
what was left in the iterator at the start and is not left in it at the end. Then `hasNext` answers
whether anything is left, and changes nothing about what `next` does; `next` answers the first element
that is left, and it fails exactly if there is none. An element that is no object is handed to the
variable of a `for` loop by binding it to a copy around the body, and to a callback by calling it with
the element and nothing else. -/
theorem shared_iterators_neither_lose_nor_repeat :
    (∀ (items : List CellRef) (m : Machine), ∃ iterator ref n,
      newIterator items m = .ok iterator n ∧ n.content iterator = .iterator ref ∧
        n.remaining ref = items) ∧
    ∀ ref : IteratorRef,
      (∀ (m n : Machine) (handed : List CellRef), HandsOut ref m handed n →
        m.remaining ref = handed ++ n.remaining ref ∧
        ∀ (call : Call) (iterator : CellRef) (args : List CellRef),
          n.content iterator = .iterator ref →
            (∃ answer k, Method.run call (.iterator .hasNext) iterator args n = .ok answer k ∧
              k.content answer = .boolean (!(n.remaining ref).isEmpty) ∧
              ∀ others, Outcome.value? (Method.run call (.iterator .next) iterator others k) =
                Outcome.value? (Method.run call (.iterator .next) iterator others n)) ∧
            (∀ item, (∃ k, Method.run call (.iterator .next) iterator args n = .ok item k) ↔
              (n.remaining ref).head? = some item) ∧
            ((∃ e k, Method.run call (.iterator .next) iterator args n = .error e k) ↔
              n.remaining ref = [])) ∧
      (∀ (interp : Interp) (site : Site) (name : String) (body : Node) (m : Machine),
        ∀ turn ∈ forTurns interp site name body ref m,
          turn.before.tableOf? turn.element = none → ∃ inner copied k,
            k.lookUpName inner.frame name = some copied ∧
            k.content copied = turn.before.content turn.element ∧
            k.iterators = turn.before.iterators ∧
            turn.after = Outcome.final (interp.pass inner body k)) ∧
      ∀ (call : Call) (self function : CellRef) (m : Machine),
        ∀ turn ∈ forEachTurns call self function ref m,
          turn.before.tableOf? turn.element = none →
            turn.after = Outcome.final (call.invoke "forEach" function [turn.element] turn.before) := by
  refine ⟨fun items m ↦ ?_, fun ref ↦ ⟨fun m n handed h ↦ ⟨h.remaining_eq,
    fun call iterator args hiterator ↦ ⟨?_, ?_, ?_⟩⟩,
    fun interp site name body m turn hturn hplain ↦ ?_, fun call self function m turn hturn hplain ↦ ?_⟩⟩
  · let listed : Machine := { m with iterators := m.iterators.push { rest := items } }
    refine ⟨_, ⟨m.iterators.size⟩, _, rfl, listed.content_new _, ?_⟩
    change ((m.iterators.push { rest := items })[m.iterators.size]?.getD default).remaining = items
    rw [Array.getElem?_push_size]
    rfl
  · obtain ⟨answer, k, hasked, hanswer, hleft, hkept⟩ := hasNext_apply call args hiterator
    have hbound := Machine.bound_of_content (by rw [hiterator]; exact nofun)
    have hstill := (hkept.content iterator hbound).trans hiterator
    refine ⟨answer, k, hasked, hanswer, fun others ↦ ?_⟩
    rw [value?_next call others hstill, value?_next call others hiterator, hleft]
  · intro item
    rw [← value?_next call args hiterator]
    cases Method.run call (.iterator .next) iterator args n with
    | ok => simp [Outcome.value?]
    | error => simp [Outcome.value?]
  · rw [← List.head?_eq_none_iff, ← value?_next call args hiterator]
    cases Method.run call (.iterator .next) iterator args n with
    | ok => simp [Outcome.value?]
    | error => simp [Outcome.value?]
  · obtain ⟨last, hafter⟩ := after_of_turnsFrom hturn
    obtain ⟨inner, copied, k, hrun, hname, hcopied, hsame⟩ :=
      forTurn_apply interp site name body last hplain
    exact ⟨inner, copied, k, hname, hcopied, hsame, by rw [hafter, hrun]⟩
  · obtain ⟨last, hafter⟩ := after_of_turnsFrom hturn
    rw [hafter, forEachTurn_apply call self function _ last hplain]
    exact Outcome.final_map _ _ _

/-- Three texts, and a variable that names an iterator over them. -/
def iteratedTexts : Machine where
  cells := #[.string "a", .string "b", .string "c", .iterator ⟨0⟩]
  iterators := #[{ rest := [⟨0⟩, ⟨1⟩, ⟨2⟩] }]
  scopes := #[({} : Scope).insert "it" ⟨3⟩]
  traces := #[{}]
  contexts := #[{ source := "main", globals := ⟨0⟩, trace := ⟨0⟩ }]

/-- The root of the source that has this variable. -/
def textsSite : Site := ⟨⟨0⟩, (iteratedTexts.context ⟨0⟩).frame⟩

/-- The machine once the iterator has been asked for an element. -/
def askedTexts : Machine :=
  Outcome.final (Method.run (.detached 20 1) (.iterator .hasNext) ⟨3⟩ [] iteratedTexts)

/-- The machine once a loop has found the iterator behind its name. -/
def foundTexts : Machine :=
  Outcome.final ((interp 2).value textsSite (.identifier "it") .required askedTexts)

/-- The machine after a loop that breaks off in its first turn. -/
def leftTexts : Machine :=
  Outcome.final ((interp 2).forLoop textsSite ["x"] (.identifier "it") .breakStatement askedTexts)

/-- The machine after a call of `forEach` whose callback fails. -/
def failedTexts : Machine :=
  Outcome.final (Method.run (.detached 20 1) (.common .forEach) ⟨3⟩ [⟨0⟩] leftTexts)

/-- An iterator over three texts is asked for an element; then a loop that breaks off gets the first
one, a callback that fails the second, and `next` the third. Nothing is left. -/
theorem three_texts_are_handed_out : ∃ n,
    HandsOut ⟨0⟩ iteratedTexts [⟨0⟩, ⟨1⟩, ⟨2⟩] n ∧ n.remaining ⟨0⟩ = [] ∧
      ∃ e k, Method.run (.detached 20 1) (.iterator .next) ⟨3⟩ [] n = .error e k := by
  obtain ⟨hconsumers, -, -⟩ := shared_iterators_neither_lose_nor_repeat.2 ⟨0⟩
  have hasked : HandsOut ⟨0⟩ iteratedTexts [] askedTexts := .hasNext rfl _ _
  have hleft : HandsOut ⟨0⟩ askedTexts
      ([] ++ handedOut (forTurns (interp 2) textsSite "x" .breakStatement ⟨0⟩ foundTexts) fun _ ↦ [])
      leftTexts :=
    .forLoop rfl (.elsewhere rfl) rfl fun turn hturn ↦ .elsewhere ((by decide :
      ∀ turn ∈ forTurns (interp 2) textsSite "x" .breakStatement ⟨0⟩ foundTexts,
        turn.after.remaining ⟨0⟩ = turn.before.remaining ⟨0⟩) turn hturn)
  have hfailed : HandsOut ⟨0⟩ leftTexts
      (handedOut (forEachTurns (.detached 20 1) ⟨3⟩ ⟨0⟩ ⟨0⟩ leftTexts) fun _ ↦ []) failedTexts :=
    .forEach rfl fun turn hturn ↦ .elsewhere ((by decide :
      ∀ turn ∈ forEachTurns (.detached 20 1) ⟨3⟩ ⟨0⟩ ⟨0⟩ leftTexts,
        turn.after.remaining ⟨0⟩ = turn.before.remaining ⟨0⟩) turn hturn)
  obtain ⟨n, hnext⟩ : ∃ n, Method.run (.detached 20 1) (.iterator .next) ⟨3⟩ [] failedTexts =
    .ok ⟨2⟩ n := ⟨_, rfl⟩
  have hlast : HandsOut ⟨0⟩ failedTexts [⟨2⟩] n := .next rfl hnext
  have hfirst : handedOut (forTurns (interp 2) textsSite "x" .breakStatement ⟨0⟩ foundTexts)
      (fun _ ↦ []) = [⟨0⟩] := by decide
  have hsecond : handedOut (forEachTurns (.detached 20 1) ⟨3⟩ ⟨0⟩ ⟨0⟩ leftTexts)
      (fun _ ↦ []) = [⟨1⟩] := by decide
  rw [hfirst] at hleft
  rw [hsecond] at hfailed
  have hhanded : HandsOut ⟨0⟩ iteratedTexts [⟨0⟩, ⟨1⟩, ⟨2⟩] n :=
    hasked.trans (hleft.trans (hfailed.trans hlast))
  obtain ⟨hall, hcalls⟩ := hconsumers _ _ _ hhanded
  have hnone : n.remaining ⟨0⟩ = [] := List.self_eq_append_right.mp hall
  have hstill : n.content ⟨3⟩ = .iterator ⟨0⟩ := by
    cases hnext
    rfl
  exact ⟨n, hhanded, hnone, (hcalls _ _ [] hstill).2.2.mpr hnone⟩

end TreeScript
