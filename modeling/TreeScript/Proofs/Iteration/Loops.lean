import TreeScript.Method.Text
import TreeScript.Eval.Statement
import TreeScript.Proofs.Enclosure.Additions
import TreeScript.Proofs.Tandem.Basic

/-!
# What a loop over an object meets

A loop over an object does not walk through the object itself. It makes an iterator of pairs of key
and value first, one for each entry (`makeIterator_object`), and then draws them. So whatever its
turns do to the object, the loop meets the entries that were there when it began, in their order,
each of them once, and nothing else (`drawAll_meets`); if it is ended early, it meets the first of
them. That rests on the iterator and the pairs left in it being out of reach of the program: they
were added to the machine for the loop, and a pair is handed over to the program when it is drawn,
after those that were made before it.

Both loops of the language are of this kind (`LoopsOver`): the statement (`forLoop_loops`) and the
method (`forEach_loops`). A single variable is bound to a copy of the value of the pair, and two of
them to copies of both parts (`bindElement_pair`).
-/

set_option autoImplicit false

namespace TreeScript

/-! ### Pairs -/

namespace Machine

/-- A cell that holds an array of the key and the value of an entry. -/
def IsPair (m : Machine) (cell : CellRef) (entry : Entry) : Prop :=
  m.IsArrayOf cell [entry.key, entry.value]

variable {m n k : Machine} {cell : CellRef} {entry : Entry}

theorem IsPair.kept (h : m.IsPair cell entry) (hkept : KeepsFrom 0 m n) : n.IsPair cell entry :=
  IsArrayOf.kept h hkept

/-- A pair is an array of two. -/
theorem IsPair.array (h : m.IsPair cell entry) : ∃ ref, m.tableOf? cell = some ref ∧
    m.isArray ref = true ∧ (m.table ref).size = 2 ∧
      (m.table ref).values = [entry.key, entry.value] := by
  obtain ⟨ref, hcell, hitems⟩ := h
  have hfew : 2 ≤ twoTo 63 := by decide
  exact ⟨ref, tableOf?_eq_some_iff.mpr hcell, hitems.isArray hfew, hitems.size, hitems.values⟩

/-- The pair of an entry was added to a machine, and nothing else but what it is made of. -/
structure MakesPair (m n : Machine) (pair : CellRef) (entry : Entry) : Prop where
  grown : m.Grown n
  whole : n.Whole
  cell : m.cells.size ≤ pair.index
  array : ∃ ref, n.content pair = .object ref ∧ m.tables.size ≤ ref.index ∧
    (∀ key ∈ (n.table ref).keys, m.cells.size ≤ key.index) ∧ n.HasItems ref [entry.key, entry.value]

/-- A pair that has been made is as it was, as long as what was added to the machine before it is out
of reach. -/
theorem MakesPair.isPair {base : Machine} (h : m.MakesPair n cell entry) (hbase : n.Enlarged base)
    (hk : (m.added base).Holds k) : k.IsPair cell entry := by
  obtain ⟨ref, hcell, hnew, hkeys, hitems⟩ := h.array
  have hinside {other : CellRef} (hother : m.cells.size ≤ other.index)
      (hbound : other.index < n.cells.size) :
      (m.added base).cell other ∧ k.content other = n.content other := by
    have hmember : (m.added base).cell other := ⟨hother, hbound.trans_le hbase.cells.size⟩
    exact ⟨hmember, (hk.sameContent other hmember).trans (hbase.cells.content other hbound)⟩
  have htable : (m.added base).table ref := ⟨hnew, hitems.orderly.table.trans_le hbase.tables⟩
  have hsame : k.table ref = n.table ref :=
    (hk.sameTable ref htable).trans (hbase.table ref hitems.orderly.table)
  have hbound {key : CellRef} (hkey : key ∈ (n.table ref).keys) : key.index < n.cells.size := by
    obtain ⟨found, hfound, rfl⟩ := List.mem_map.mp hkey
    exact hitems.orderly.keys found hfound
  refine ⟨ref, (hinside h.cell (bound_of_object hcell)).2.trans hcell, ?_⟩
  exact hitems.congr (hk.tables ref htable) hsame
    (fun key hkey ↦ hk.cells key (hinside (hkeys key hkey) (hbound hkey)).1)
    fun key hkey ↦ (hinside (hkeys key hkey) (hbound hkey)).2

/-- The pairs of some entries were made one after the other, and nothing else. -/
inductive MakesPairs : Machine → List CellRef → List Entry → Machine → Prop
  | none {m : Machine} : MakesPairs m [] [] m
  | pair {m n k : Machine} {pair : CellRef} {entry : Entry} {pairs : List CellRef}
      {entries : List Entry} (hpair : m.MakesPair n pair entry)
      (hlater : MakesPairs n pairs entries k) : MakesPairs m (pair :: pairs) (entry :: entries) k

theorem MakesPairs.grown {pairs : List CellRef} {entries : List Entry}
    (h : MakesPairs m pairs entries n) : m.Grown n := by
  induction h with
  | none => exact .refl _
  | pair hpair _ ih => exact hpair.grown.trans ih

theorem MakesPairs.length_eq {pairs : List CellRef} {entries : List Entry}
    (h : MakesPairs m pairs entries n) : pairs.length = entries.length := by
  induction h with
  | none => rfl
  | pair _ _ ih => exact congrArg (· + 1) ih

theorem MakesPairs.isPair {pairs : List CellRef} {entries : List Entry}
    (h : MakesPairs m pairs entries n) : List.Forall₂ n.IsPair pairs entries := by
  induction h with
  | none => exact .nil
  | pair hpair hlater ih =>
    obtain ⟨ref, hcell, -, -, hitems⟩ := hpair.array
    refine .cons ?_ ih
    exact IsPair.kept ⟨ref, hcell, hitems⟩ (hlater.grown.keepsFrom 0)

/-- On a whole machine that has its parts, the pair of an entry can be made. -/
theorem newPair (hm : m.Whole) (hentry : m.absent.OpenEntry entry) :
    ∃ pair n, newArray [entry.key, entry.value] m = .ok pair n ∧ m.MakesPair n pair entry := by
  obtain ⟨n, hmade, hgrown, horderly, hkeys, hvalues, hnew⟩ :=
    newArray_entries [entry.key, entry.value] m
  have hitems : n.HasItems ⟨m.tables.size⟩ [entry.key, entry.value] := ⟨horderly, hkeys, hvalues⟩
  obtain ⟨ref, hcell, hlast⟩ := hitems.newObject
  obtain rfl : ⟨m.tables.size⟩ = ref := Content.object.inj ((n.content_new _).symm.trans hcell)
  refine ⟨_, _, hmade, hgrown.trans (n.grown_withCell _), ?_, hgrown.cells.size, _, hcell,
    Nat.le_refl _, hnew, hlast⟩
  exact hm.newPair (Nat.lt_of_not_le hentry.key) (Nat.lt_of_not_le hentry.value) hmade

/-- The pairs of some entries can be made, one after the other. -/
theorem newPairs {entries : List Entry} (hm : m.Whole)
    (hentries : ∀ entry ∈ entries, m.absent.OpenEntry entry) :
    ∃ pairs n, entries.mapM (fun entry ↦ newArray [entry.key, entry.value]) m = .ok pairs n ∧
      MakesPairs m pairs entries n ∧ n.Whole := by
  induction entries generalizing m with
  | nil => exact ⟨[], m, rfl, .none, hm⟩
  | cons entry entries ih =>
    obtain ⟨hfirst, hothers⟩ := List.forall_mem_cons.mp hentries
    obtain ⟨pair, n, hmade, hpair⟩ := newPair hm hfirst
    have hcovers : m.absent.Covers n.absent := hpair.grown.enlarged.absent_covers
    obtain ⟨pairs, k, hrest, hlater, hk⟩ :=
      ih hpair.whole fun other hother ↦ hcovers.openEntry (hothers other hother)
    refine ⟨pair :: pairs, k, ?_, .pair hpair hlater, hk⟩
    rw [List.mapM_cons, Run.bind_ok hmade, Run.bind_ok hrest]
    rfl

/-- The iterator of an object is new, and is left with the pairs of the entries. Nothing that was
there has changed. -/
theorem makeIterator_object {ref : TableRef} (hm : m.Whole) (h : m.content cell = .object ref) :
    ∃ iterator drawn last n, makeIterator cell m = .ok iterator n ∧
      n.content iterator = .iterator drawn ∧
      MakesPairs m (n.remaining drawn) (m.table ref).entries last ∧ last.Enlarged n ∧
        (last.added n).iterator drawn := by
  obtain ⟨pairs, last, hmade, hpairs, -⟩ := newPairs hm (hm.table ref).entries
  let listed : Machine := { last with iterators := last.iterators.push { rest := pairs } }
  have hremaining (other : IteratorRef) : listed.remaining other =
      if other.index = last.iterators.size then pairs else last.remaining other := by
    change ((last.iterators.push { rest := pairs })[other.index]?.getD default).remaining = _
    rw [Array.getElem?_push]
    split <;> rfl
  have hsize : last.iterators.size < listed.iterators.size := size_lt_push _ _
  have hlisted : last.Enlarged listed :=
    ⟨keepsCells_of_eq rfl, Nat.le_refl _, fun _ _ ↦ rfl, Nat.le_of_lt hsize,
      fun other hother ↦ by rw [hremaining, if_neg (Nat.ne_of_lt hother)], rfl⟩
  have hcell := (listed.grown_withCell (.iterator ⟨last.iterators.size⟩)).enlarged
  refine ⟨_, ⟨last.iterators.size⟩, last, _, ?_, listed.content_new _, ?_, hlisted.trans hcell,
    Nat.le_refl _, hsize⟩
  · have hread : TreeScript.content cell m = .ok (.object ref) m :=
      congrArg (EStateM.Result.ok · m) h
    have hiterated : iterate cell m =
        .ok (some ⟨last.cells.size⟩) (listed.withCell (.iterator ⟨last.iterators.size⟩)) := by
      unfold iterate
      rw [Run.bind_ok hread]
      exact Run.bind_ok hmade
    unfold makeIterator
    rw [Run.bind_ok hiterated]
    rfl
  · have hleft : (listed.withCell (.iterator ⟨last.iterators.size⟩)).remaining
        ⟨last.iterators.size⟩ = pairs := (hremaining _).trans (if_pos rfl)
    rwa [hleft]

/-- An iterator hands out the first element that is left, if there is one, and is left with the
others. -/
theorem next?_eq (ref : IteratorRef) (m : Machine) : ∃ it : Iterator,
    it.remaining = (m.remaining ref).tail ∧
      next? ref m = .ok (m.remaining ref).head? (m.withIterator ref it) := by
  obtain ⟨hnext, hrest⟩ := (m.iterator ref).next_eq
  refine ⟨(m.iterator ref).next.2, hrest, ?_⟩
  exact congrArg (EStateM.Result.ok · (m.withIterator ref (m.iterator ref).next.2)) hnext

/-- What is left in an iterator that has handed out its first element, if there was one. -/
theorem remaining_drawn {ref : IteratorRef} {it : Iterator}
    (hrest : it.remaining = (m.remaining ref).tail) :
    (m.withIterator ref it).remaining ref = (m.remaining ref).tail := by
  rw [remaining_withIterator_self, hrest]
  intro hnone
  rw [hrest, hnone, List.tail_nil]

end Machine

/-! ### Draws -/

section

variable {σ : Type} {ref : IteratorRef} {act : σ → CellRef → Run (Bool × σ)} {entries : List Entry}
  {s s' : σ} {m m' k k' : Machine} {ended : Bool}

/-- Hands the elements left in an iterator, of which there are at most `count`, to an action, until
it ends the loop. Answers whether it did. -/
def drawAll (ref : IteratorRef) (act : σ → CellRef → Run (Bool × σ)) : Nat → σ → Run (Bool × σ)
  | 0, s => return (false, s)
  | count + 1, s => do
    match ← next? ref with
    | none => return (false, s)
    | some element =>
      let (ended, s) ← act s element
      if ended then return (true, s) else drawAll ref act count s

/-- Turns with the elements that an iterator hands out lead from a state and a machine to others,
and the last of them may end the loop. -/
inductive Draws (ref : IteratorRef) (act : σ → CellRef → Run (Bool × σ)) :
    σ → Machine → List (Turn CellRef) → Bool → σ → Machine → Prop
  | done {s : σ} {m : Machine} : Draws ref act s m [] false s m
  | ended {s s' : σ} {m n n' : Machine} {element : CellRef}
      (hnext : next? ref m = .ok (some element) n)
      (hact : act s element n = .ok (true, s') n') :
      Draws ref act s m [⟨n, element, n'⟩] true s' n'
  | turn {s s' s'' : σ} {m n n' m' : Machine} {element : CellRef} {turns : List (Turn CellRef)}
      {ended : Bool} (hnext : next? ref m = .ok (some element) n)
      (hact : act s element n = .ok (false, s') n') (hlater : Draws ref act s' n' turns ended s'' m') :
      Draws ref act s m (⟨n, element, n'⟩ :: turns) ended s'' m'

/-- Turns that leave alone what was added to a machine, or to a later one, and not handed to them. -/
def KeepsAdded (m : Machine) (act : σ → CellRef → Run (Bool × σ)) : Prop :=
  ∀ (n k : Machine) (s : σ) (element : CellRef), m.Enlarged n → (n.added k).OpenCell element →
    Spares (n.added k).Holds (act s element)

/-- Each turn of a loop is about the pair of the entry in its place, and there is a turn for each
entry unless the loop was ended. -/
structure MeetsPairs (turns : List (Turn CellRef)) (entries : List Entry) (ended : Bool) : Prop where
  pair : ∀ (i : Nat) (turn : Turn CellRef), turns[i]? = some turn →
    ∃ entry, entries[i]? = some entry ∧ turn.before.IsPair turn.element entry
  all : ended = false → turns.length = entries.length

theorem meetsPairs_nil (hall : ended = false → entries = []) : MeetsPairs [] entries ended :=
  ⟨fun _ _ hturn ↦ (nomatch hturn), fun h ↦ by rw [hall h]; rfl⟩

theorem MeetsPairs.cons {turn : Turn CellRef} {turns : List (Turn CellRef)} {entry : Entry}
    (h : MeetsPairs turns entries ended) (hpair : turn.before.IsPair turn.element entry) :
    MeetsPairs (turn :: turns) (entry :: entries) ended := by
  refine ⟨fun i other hother ↦ ?_, fun hended ↦ congrArg (· + 1) (h.all hended)⟩
  cases i with
  | zero =>
    cases hother
    exact ⟨entry, rfl, hpair⟩
  | succ i => exact h.pair i other hother

/-- A loop draws for its turns. Assumes: an iterator that is left with the pairs of some entries, out
of reach of the turns as the pairs are. The loop meets these entries. -/
theorem drawAll_meets {start last base : Machine} {pairs : List CellRef} (hact : KeepsAdded start act)
    (hpairs : Machine.MakesPairs m pairs entries last) (hstart : start.Enlarged m)
    (hlast : last.Enlarged base) (href : (last.added base).iterator ref)
    (hk : (m.added base).Holds k) (hremaining : k.remaining ref = pairs)
    (h : drawAll ref act entries.length s k = .ok (ended, s') k') :
    ∃ turns, Draws ref act s k turns ended s' k' ∧ MeetsPairs turns entries ended := by
  induction hpairs generalizing s k base with
  | none =>
    cases h
    exact ⟨[], .done, meetsPairs_nil fun _ ↦ rfl⟩
  | @pair m n last pair entry pairs entries hpair hlater ih =>
    obtain ⟨it, hit, hnext⟩ := Machine.next?_eq ref k
    rw [hremaining, List.head?_cons] at hnext
    rw [hremaining, List.tail_cons] at hit
    have hrest : n.Enlarged last := hlater.grown.enlarged
    have hbase : n.Enlarged base := hrest.trans hlast
    have hmet : (k.withIterator ref it).IsPair pair entry :=
      (hpair.isPair hbase hk).kept (Machine.keepsFrom_of_eq rfl rfl)
    -- The pair is handed over. What is made after it stays enclosed.
    have hleft := hk.handOver hpair.whole hpair.grown.enlarged hbase
      ((hrest.added_covers base).iterator ref href) it
    have hopen : (n.added (base.withIterator ref it)).OpenCell pair := by
      obtain ⟨_, hcell, -⟩ := hpair.array
      exact fun hnew ↦ Nat.lt_irrefl _ ((Machine.bound_of_object hcell).trans_le hnew.1)
    have hlast' : last.Enlarged (base.withIterator ref it) := hlast.withIterator href.1 it
    have href' : (last.added (base.withIterator ref it)).iterator ref :=
      ⟨href.1, href.2.trans_eq Array.size_setIfInBounds.symm⟩
    have hstart' := hstart.trans hpair.grown.enlarged
    rw [List.length_cons, drawAll, Run.bind_ok hnext, Run.bind_eq_ok_iff] at h
    obtain ⟨⟨stops, s₁⟩, k₁, hturn, hgo⟩ := h
    have hturned := ((hact n _ s pair hstart' hopen).of_ok hleft hturn).1
    cases stops with
    | true =>
      cases hgo
      have hnone : MeetsPairs [] entries true := meetsPairs_nil fun hended ↦ nomatch hended
      exact ⟨_, .ended hnext hturn, hnone.cons hmet⟩
    | false =>
      have hremaining' : k₁.remaining ref = pairs := by
        rw [hturned.sameRemaining ref ((hrest.added_covers _).iterator ref href')]
        change (base.withIterator ref it).remaining ref = pairs
        rw [Machine.remaining_withIterator, if_pos ⟨rfl, href.2⟩, hit]
      obtain ⟨turns, hdraws, hmeets⟩ := ih hstart' hlast' href' hturned hremaining' hgo
      exact ⟨_, .turn hnext hturn hdraws, hmeets.cons hmet⟩

/-- A loop over an object, from the machine where it begins to the one where it is over: it draws its
elements from an iterator that is made for it, while nothing else happens, and its turns meet the
entries that the object has at the start. -/
def LoopsOver (m : Machine) (table : TableRef) (act : σ → CellRef → Run (Bool × σ)) (ended : Bool)
    (result : σ) (m' : Machine) : Prop :=
  ∃ ref start k turns, Machine.KeepsFrom 0 m k ∧ Draws ref act start k turns ended result m' ∧
    MeetsPairs turns (m.table table).entries ended

/-- An iterator can be made for an object, and who draws from it until it is empty loops over the
object. -/
theorem makeIterator_loops {cell : CellRef} {table : TableRef} (hm : m.Whole)
    (hobject : m.content cell = .object table) :
    ∃ iterator ref k, makeIterator cell m = .ok iterator k ∧
      content iterator k = .ok (.iterator ref) k ∧
      ∀ {σ : Type} {act : σ → CellRef → Run (Bool × σ)} {start result : σ} {m' : Machine},
        KeepsAdded m act →
        (Prod.snd <$> drawAll ref act (k.remaining ref).length start) (k.withCell .empty) =
            .ok result m' → ∃ ended, LoopsOver m table act ended result m' := by
  obtain ⟨iterator, ref, last, k, hmade, hiterator, hpairs, hlast, href⟩ :=
    Machine.makeIterator_object hm hobject
  have hgrown : m.Enlarged k := hpairs.grown.enlarged.trans hlast
  have hkept := hgrown.trans (k.grown_withCell .empty).enlarged
  refine ⟨iterator, ref, k, hmade, congrArg (EStateM.Result.ok · k) hiterator, fun hact h ↦ ?_⟩
  rw [map_eq_pure_bind, Run.bind_eq_ok_iff, hpairs.length_eq] at h
  obtain ⟨⟨ended, result⟩, m', hdrawn, hresult⟩ := h
  cases hresult
  have hholds : (m.added k).Holds (k.withCell .empty) := (hm.holds_added hgrown).withCell trivial
  have hstart : m.Enlarged m := (Machine.Grown.refl m).enlarged
  obtain ⟨turns, hdraws, hmeets⟩ := drawAll_meets hact hpairs hstart hlast href hholds rfl hdrawn
  exact ⟨ended, ref, _, _, turns, hkept.keepsFrom 0, hdraws, hmeets⟩

end

/-! ### The loops of the language -/

section

variable {m m' n : Machine} {cell pair : CellRef} {entry : Entry} {table : TableRef}

/-- A loop with a single variable binds it to a copy of the value of a pair, and one with two
variables binds them to copies of the key and the value. -/
theorem bindElement_pair (h : m.IsPair pair entry) (frame : Frame) :
    (∀ name, Interp.bindElement [name] pair frame m =
        (do frame.putOnTop name (← copy entry.value) : Run Unit) m) ∧
      ∀ first second, Interp.bindElement [first, second] pair frame m = (do
        frame.putOnTop first (← copy entry.key)
        frame.putOnTop second (← copy entry.value) : Run Unit) m := by
  obtain ⟨ref, hpair, harray, -, hvalues⟩ := h.array
  have hitems : ((m.tableOf? pair).filter m.isArray).map (fun ref ↦ (m.table ref).values) =
      some [entry.key, entry.value] := by
    rw [hpair, Option.filter_some_pos harray, Option.map_some, hvalues]
  constructor
  · intro name
    unfold Interp.bindElement
    rw [Run.get_bind]
    dsimp only
    rw [hitems]
    rfl
  · intro first second
    unfold Interp.bindElement
    rw [Run.get_bind]
    dsimp only
    rw [hitems]
    have hlength : [entry.key, entry.value].length = [first, second].length := rfl
    dsimp only
    rw [if_pos hlength]
    simp only [List.zip_cons_cons, List.zip_nil_left, List.forIn_cons, List.forIn_nil, bind_assoc,
      pure_bind, bind_pure_unit]

/-- What the statement does with an element: a pass over the body, in a frame of its own. -/
def forTurn (interp : Interp) (site : Site) (names : List String) (body : Node) (_ : Completion)
    (element : CellRef) : Run (Bool × Completion) := do
  let inner ← site.fork
  site.traced .invalidControl (Interp.bindElement names element inner.frame)
  interp.pass inner body

theorem forElements_eq (interp : Interp) (site : Site) (names : List String) (body : Node)
    (ref : IteratorRef) (count : Nat) (last : Completion) :
    interp.forElements site names body ref count last =
      Prod.snd <$> drawAll ref (forTurn interp site names body) count last := by
  induction count generalizing last with
  | zero => rw [Interp.forElements, drawAll, map_pure]
  | succ count ih =>
    rw [Interp.forElements, drawAll, map_bind]
    refine congrArg _ (funext fun next ↦ ?_)
    cases next with
    | none => rfl
    | some element =>
      dsimp only [forTurn]
      simp only [bind_assoc, map_bind]
      refine congrArg _ (funext fun inner ↦ congrArg _ (funext fun _ ↦ congrArg _ (funext fun ended ↦ ?_)))
      cases ended.1 with
      | true => rfl
      | false => exact ih _

/-- What a pass over the body does stays within what it can reach. -/
theorem forTurn_keeps {site : Site} (hsite : site.context.index < m.contexts.size) (fuel : Nat)
    (names : List String) (body : Node) : KeepsAdded m (forTurn (interp fuel) site names body) := by
  intro n k _ element hn helement
  have hinterp := Enclosure.openInterp (n.added k) fuel
  refine (Enclosure.fork (hn.openSite_added k hsite)).bind fun inner hinner ↦ ?_
  have hbound := Enclosure.bindElement names helement inner.frame
  exact Spares.bind (Enclosure.traced site .invalidControl hbound) fun _ ↦
    (Enclosure.pass hinterp hinner body).spares

/-- Assumes: a `for` loop over an object that does not fail. It loops over the object from the
machine on which the object was found. -/
theorem forLoop_loops {fuel : Nat} {site : Site} {names : List String} {iterable body : Node}
    {result : Completion} (hn : n.Whole) (hsite : site.context.index < n.contexts.size)
    (hvalue : (interp fuel).value site iterable .required m = .ok cell n)
    (hobject : n.content cell = .object table)
    (h : (interp fuel).forLoop site names iterable body m = .ok result m') :
    ∃ ended, LoopsOver n table (forTurn (interp fuel) site names body) ended result m' := by
  obtain ⟨iterator, ref, k, hmade, hread, hloops⟩ := makeIterator_loops hn hobject
  unfold Interp.forLoop at h
  rw [Run.bind_ok hvalue, Run.bind_ok (Run.traced_ok site _ hmade), Run.bind_ok hread] at h
  have hempty : newEmpty k = .ok ⟨k.cells.size⟩ (k.withCell .empty) := rfl
  change (newEmpty >>= fun value ↦ (interp fuel).forElements site names body ref
    (k.remaining ref).length { value }) k = _ at h
  rw [Run.bind_ok hempty, forElements_eq] at h
  exact hloops (forTurn_keeps hsite fuel names body) h

/-- A function that is called for each element is called for a pair with the key and the value if it
has two parameters, and with the value alone if an object is gone through. -/
theorem elementArgs_pair (h : m.IsPair pair entry) (self : CellRef) (params : Option Nat) :
    CommonMethod.elementArgs m self pair params =
      if params = some 2 then [entry.key, entry.value]
      else if m.kind self = .object then [entry.value] else [pair] := by
  obtain ⟨ref, hpair, harray, hsize, hvalues⟩ := h.array
  unfold CommonMethod.elementArgs
  rw [hpair]
  dsimp only
  rw [hsize, harray, hvalues]
  rfl

/-- What the method does with an element: a call of the function, which never ends the loop. -/
def forEachTurn (call : Call) (self function : CellRef) (params : Option Nat) (_ : CellRef)
    (element : CellRef) : Run (Bool × CellRef) := do
  let args := CommonMethod.elementArgs (← get) self element params
  return (false, ← call.invoke "forEach" function args)

theorem forEach_eq (call : Call) (self function : CellRef) (params : Option Nat)
    (ref : IteratorRef) (count : Nat) (result : CellRef) :
    CommonMethod.forElements call self function params ref count result =
      Prod.snd <$> drawAll ref (forEachTurn call self function params) count result := by
  induction count generalizing result with
  | zero => rw [CommonMethod.forElements, drawAll, map_pure]
  | succ count ih =>
    rw [CommonMethod.forElements, drawAll, map_bind]
    refine congrArg _ (funext fun next ↦ ?_)
    cases next with
    | none => rfl
    | some element =>
      dsimp only [forEachTurn]
      simp only [bind_assoc, map_bind, pure_bind, ih]
      rfl

/-- What a function does that is called for an element stays within what it can reach. -/
theorem forEachTurn_keeps {fuel : Nat} {site : Site} {call : Call} {before : Machine}
    (hsite : site.context.index < m.contexts.size)
    (hcall : (interp fuel).callFrom site before = .ok call before) (self : CellRef)
    {function : CellRef} (hfunction : function.index < m.cells.size) (params : Option Nat) :
    KeepsAdded m (forEachTurn call self function params) := by
  intro n k _ element hn helement
  have hinterp := Enclosure.openInterp (n.added k) fuel
  have hopen := hinterp.openCall (hn.openSite_added k hsite) hcall
  have hreached : (n.added k).OpenCell function :=
    fun hnew ↦ Nat.not_le_of_lt (hfunction.trans_le hn.cells.size) hnew.1
  refine .get_bind fun k hk ↦ ?_
  have hargs := Enclosure.elementArgs hk self helement params
  exact (hopen _ _ _ hreached hargs).bind fun _ _ ↦ .pure trivial

/-- A `forEach` loop is never ended. -/
theorem not_ended_of_forEach {call : Call} {self function : CellRef} {params : Option Nat}
    {ref : IteratorRef} {s s' : CellRef} {turns : List (Turn CellRef)} {ended : Bool}
    (h : Draws ref (forEachTurn call self function params) s m turns ended s' m') :
    ended = false := by
  have hnever : ∀ {s s' : CellRef} {element : CellRef} {n n' : Machine},
      forEachTurn call self function params s element n ≠ .ok (true, s') n' := by
    intro s s' element n n' hact
    unfold forEachTurn at hact
    rw [Run.get_bind, Run.bind_eq_ok_iff] at hact
    obtain ⟨_, _, -, hreturned⟩ := hact
    cases hreturned
  induction h with
  | done => rfl
  | ended _ hact => exact absurd hact hnever
  | turn _ _ _ ih => exact ih

/-- Assumes: a call of `forEach` on an object that does not fail, with a function that exists. It
loops over the object, and does not end before it has met everything. -/
theorem forEach_loops {fuel : Nat} {site : Site} {call : Call} {before : Machine}
    {self function result : CellRef} {rest : List CellRef} (hm : m.Whole)
    (hsite : site.context.index < m.contexts.size)
    (hcall : (interp fuel).callFrom site before = .ok call before)
    (hfunction : function.index < m.cells.size) (hobject : m.content self = .object table)
    (h : CommonMethod.run call .forEach self (function :: rest) m = .ok result m') :
    LoopsOver m table (forEachTurn call self function (m.content function).paramCount?) false result
      m' := by
  obtain ⟨iterator, ref, k, hmade, hread, hloops⟩ := makeIterator_loops hm hobject
  change (makeIterator self >>= fun iterator ↦ _) m = _ at h
  rw [Run.bind_ok hmade, Run.bind_ok hread] at h
  have hempty : newEmpty k = .ok ⟨k.cells.size⟩ (k.withCell .empty) := rfl
  change (newEmpty >>= fun value ↦ CommonMethod.forElements call self function
    (m.content function).paramCount? ref (k.remaining ref).length value) k = _ at h
  rw [Run.bind_ok hempty, forEach_eq] at h
  obtain ⟨ended, ref, start, k, turns, hkept, hdraws, hmeets⟩ :=
    hloops (forEachTurn_keeps hsite hcall self hfunction _) h
  obtain rfl := not_ended_of_forEach hdraws
  exact ⟨ref, start, k, turns, hkept, hdraws, hmeets⟩

end

end TreeScript
