import Mathlib.Data.Finset.Card
import TreeScript.Proofs.Patterns.Language

/-!
# The search for a match

The search runs all threads of a program side by side. At each place it collects the addresses that
can be reached without consuming a character, and passes over those that it has seen already. Whatever
it has seen is settled in the end: the addresses it leads to have been seen too, and if a thread has to
wait there, a thread does (`reach_reached`). So a thread is waiting at a place for everything that can
be accepted from there, and none of them waits in vain (`runThreads_isSome_iff`). The search cuts threads
off only behind one that accepts, so it finds a match if and only if there is one
(`isMatch_iff_accepted`).
-/

set_option autoImplicit false

namespace TreeScript.Pattern.Program

variable {program : Program} {text : Array Char} {place pc : Nat}
  {found found' : List Nat × List Thread}

/-- A thread waits at an address to consume a character or to accept. -/
def Waits (code : Array Instr) (pc : Nat) : Prop :=
  code[pc]? = some .accept ∨ ∃ set, code[pc]? = some (.char set)

/-! ### What is reached at a place -/

/-- An address has been dealt with: where it leads to at its place has been seen, and a thread waits
there if it has to. -/
structure Settled (program : Program) (text : Array Char) (place : Nat)
    (found : List Nat × List Thread) (pc : Nat) : Prop where
  next : ∀ {pc'}, Step program.code text pc place pc' place → pc' ∈ found.1
  waits : Waits program.code pc → ∃ thread ∈ found.2, thread.pc = pc

/-- What has been found is more than before by what an address leads to. -/
structure Reached (program : Program) (text : Array Char) (place pc : Nat)
    (found found' : List Nat × List Thread) : Prop where
  seen : found.1 ⊆ found'.1
  threads : found.2 ⊆ found'.2
  start : pc ∈ found'.1
  settled : ∀ {q}, q ∈ found'.1 → q ∈ found.1 ∨ Settled program text place found' q
  sound : ∀ {thread}, thread ∈ found'.2 → thread ∈ found.2 ∨ Waits program.code thread.pc ∧
    ∀ {j}, Accepted program.code text thread.pc place j → Accepted program.code text pc place j

theorem Settled.mono (h : Settled program text place found pc) (hseen : found.1 ⊆ found'.1)
    (hthreads : found.2 ⊆ found'.2) : Settled program text place found' pc where
  next hstep := hseen (h.next hstep)
  waits hwaits := by
    obtain ⟨thread, hthread, hpc⟩ := h.waits hwaits
    exact ⟨thread, hthreads hthread, hpc⟩

namespace Reached

theorem known (h : pc ∈ found.1) : Reached program text place pc found found where
  seen _ h := h
  threads _ h := h
  start := h
  settled h := .inl h
  sound h := .inl h

/-- Assumes: an address is noted, and then more is found, so that the address is settled. -/
theorem of_noted (hseen : pc :: found.1 ⊆ found'.1) (hthreads : found.2 ⊆ found'.2)
    (hsettled : ∀ {q}, q ∈ found'.1 → q ∈ pc :: found.1 ∨ Settled program text place found' q)
    (hpc : Settled program text place found' pc)
    (hsound : ∀ {thread}, thread ∈ found'.2 → thread ∈ found.2 ∨ Waits program.code thread.pc ∧
      ∀ {j}, Accepted program.code text thread.pc place j →
        Accepted program.code text pc place j) :
    Reached program text place pc found found' where
  seen _ h := hseen (List.mem_cons_of_mem _ h)
  threads := hthreads
  start := hseen (List.mem_cons_self ..)
  settled {q} h := by
    rcases hsettled h with hnoted | hdone
    · rcases List.mem_cons.mp hnoted with rfl | hbefore
      · exact .inr hpc
      · exact .inl hbefore
    · exact .inr hdone
  sound := hsound

/-- Nothing more is found than a thread that waits at the address, if it has to. -/
theorem here (thread : Option Thread) (hpc : ∀ t ∈ thread, t.pc = pc ∧ Waits program.code pc)
    (hends : ∀ {pc'}, ¬Step program.code text pc place pc' place)
    (hwaits : Waits program.code pc → thread.isSome) :
    Reached program text place pc found (pc :: found.1, thread.toList ++ found.2) := by
  refine of_noted (fun _ h ↦ h) (fun _ h ↦ List.mem_append_right _ h) .inl
    ⟨fun hstep ↦ absurd hstep hends, fun h ↦ ?_⟩ fun {t} h ↦ ?_
  · obtain ⟨t, rfl⟩ := Option.isSome_iff_exists.mp (hwaits h)
    exact ⟨t, List.mem_cons_self .., (hpc t rfl).1⟩
  · rcases List.mem_append.mp h with hnew | hbefore
    · obtain ⟨hsame, hwaits⟩ := hpc t (Option.mem_toList.mp hnew)
      rw [hsame]
      exact .inr ⟨hwaits, fun h ↦ h⟩
    · exact .inl hbefore

/-- An address that leads to a single one. -/
theorem through {pc' : Nat} (hstep : Step program.code text pc place pc' place)
    (hnext : ∀ {q}, Step program.code text pc place q place → q = pc')
    (hgoes : ¬Waits program.code pc)
    (h : Reached program text place pc' (pc :: found.1, found.2) found') :
    Reached program text place pc found found' := by
  refine of_noted h.seen h.threads h.settled
    ⟨fun hq ↦ (hnext hq).symm ▸ h.start, fun hwaits ↦ absurd hwaits hgoes⟩ fun ht ↦ ?_
  rcases h.sound ht with hbefore | ⟨hwaits, haccepted⟩
  · exact .inl hbefore
  · exact .inr ⟨hwaits, fun hj ↦ hstep.accepted (haccepted hj)⟩

/-- An address that leads to two others, which are explored one after the other. -/
theorem both {first second : Nat} {mid : List Nat × List Thread}
    (hfirst : Step program.code text pc place first place)
    (hsecond : Step program.code text pc place second place)
    (hnext : ∀ {q}, Step program.code text pc place q place → q = first ∨ q = second)
    (hgoes : ¬Waits program.code pc)
    (h : Reached program text place first (pc :: found.1, found.2) mid)
    (h' : Reached program text place second mid found') :
    Reached program text place pc found found' := by
  refine of_noted (List.Subset.trans h.seen h'.seen) (List.Subset.trans h.threads h'.threads)
    (fun {q} hq ↦ ?_) ⟨fun hq ↦ ?_, fun hwaits ↦ absurd hwaits hgoes⟩ fun ht ↦ ?_
  · rcases h'.settled hq with hmid | hdone
    · exact (h.settled hmid).imp_right fun hdone ↦ hdone.mono h'.seen h'.threads
    · exact .inr hdone
  · rcases hnext hq with rfl | rfl
    · exact h'.seen h.start
    · exact h'.start
  · rcases h'.sound ht with hmid | ⟨hwaits, haccepted⟩
    · rcases h.sound hmid with hbefore | ⟨hwaits, haccepted⟩
      · exact .inl hbefore
      · exact .inr ⟨hwaits, fun hj ↦ hfirst.accepted (haccepted hj)⟩
    · exact .inr ⟨hwaits, fun hj ↦ hsecond.accepted (haccepted hj)⟩

end Reached

/-- The addresses of a program that have not been seen. -/
def unseen (program : Program) (seen : List Nat) : Finset Nat :=
  Finset.range program.code.size \ seen.toFinset

theorem card_unseen_le {seen seen' : List Nat} (h : seen ⊆ seen') :
    (unseen program seen').card ≤ (unseen program seen).card := by
  refine Finset.card_le_card fun q hq ↦ ?_
  rw [unseen, Finset.mem_sdiff, List.mem_toFinset] at hq ⊢
  exact ⟨hq.1, fun hmem ↦ hq.2 (h hmem)⟩

theorem card_unseen_lt {seen : List Nat} {instr : Instr} (hinstr : program.code[pc]? = some instr)
    (h : pc ∉ seen) : (unseen program (pc :: seen)).card < (unseen program seen).card := by
  refine Finset.card_lt_card (Finset.ssubset_iff_subset_ne.mpr ⟨fun q hq ↦ ?_, fun hsame ↦ ?_⟩)
  · rw [unseen, Finset.mem_sdiff, List.mem_toFinset] at hq ⊢
    exact ⟨hq.1, fun hmem ↦ hq.2 (List.mem_cons_of_mem _ hmem)⟩
  · have hpc : pc ∈ unseen program seen := by
      rw [unseen, Finset.mem_sdiff, List.mem_toFinset, Finset.mem_range]
      exact ⟨(Array.getElem?_eq_some_iff.mp hinstr).1, h⟩
    rw [← hsame, unseen, Finset.mem_sdiff, List.mem_toFinset] at hpc
    exact hpc.2 (List.mem_cons_self ..)

/-- An address that leads to nothing and does not wait is only noted. -/
theorem Reached.noted (hends : ∀ {pc'}, ¬Step program.code text pc place pc' place)
    (hgoes : ¬Waits program.code pc) :
    Reached program text place pc found (pc :: found.1, found.2) :=
  .here none nofun hends fun h ↦ absurd h hgoes

theorem not_waits {instr : Instr} (hinstr : program.code[pc]? = some instr)
    (haccept : instr ≠ .accept) (hchar : ∀ set, instr ≠ .char set) : ¬Waits program.code pc := by
  rintro (h | ⟨set, h⟩)
  · exact haccept (Option.some.inj (hinstr.symm.trans h))
  · exact hchar set (Option.some.inj (hinstr.symm.trans h))

/-- Assumes: more fuel than addresses that have not been seen. The search of a place finds what an
address leads to. -/
theorem reach_reached (fuel : Nat) (pc : Nat) (slots : Slots) (found : List Nat × List Thread)
    (hfuel : (unseen program found.1).card < fuel) :
    Reached program text place pc found (reach program text place fuel pc slots found) := by
  induction fuel generalizing pc slots found with
  | zero => exact absurd hfuel (Nat.not_lt_zero _)
  | succ fuel ih =>
    obtain ⟨seen, threads⟩ := found
    unfold reach
    split
    · rename_i hseen
      exact .known (List.contains_iff_mem.mp hseen)
    · rename_i hnew
      have hless {instr : Instr} (hinstr : program.code[pc]? = some instr) :
          (unseen program (pc :: seen)).card < fuel :=
        Nat.lt_of_lt_of_le (card_unseen_lt hinstr fun h ↦ hnew (List.contains_iff_mem.mpr h))
          (Nat.le_of_lt_succ hfuel)
      have hwaiting {instr : Instr} (hinstr : program.code[pc]? = some instr)
          (hends : ∀ {pc'}, ¬instr.LeadsTo text pc place pc' place)
          (hwaits : Waits program.code pc) :
          Reached program text place pc (seen, threads) (pc :: seen, ⟨pc, slots⟩ :: threads) :=
        .here (some ⟨pc, slots⟩) (fun t ht ↦ by cases ht; exact ⟨rfl, hwaits⟩)
          (fun hstep ↦ hends (hstep.leadsTo hinstr)) fun _ ↦ rfl
      dsimp only
      split
      · rename_i hnone
        refine .noted (fun ⟨instr, hinstr, _⟩ ↦ ?_) ?_
        · cases hnone.symm.trans hinstr
        · rintro (h | ⟨set, h⟩) <;> cases hnone.symm.trans h
      · rename_i target hjump
        exact .through ⟨_, hjump, rfl, rfl⟩ (fun hstep ↦ (hstep.leadsTo hjump).1)
          (not_waits hjump nofun nofun) (ih target slots _ (hless hjump))
      · rename_i first second hsplit
        have hfirst := ih first slots (pc :: seen, threads) (hless hsplit)
        exact .both ⟨_, hsplit, .inl rfl, rfl⟩ ⟨_, hsplit, .inr rfl, rfl⟩
          (fun hstep ↦ (hstep.leadsTo hsplit).1) (not_waits hsplit nofun nofun) hfirst
          (ih second slots _ (Nat.lt_of_le_of_lt (card_unseen_le hfirst.seen) (hless hsplit)))
      · rename_i slot hsave
        exact .through ⟨_, hsave, rfl, rfl⟩ (fun hstep ↦ (hstep.leadsTo hsave).1)
          (not_waits hsave nofun nofun) (ih (pc + 1) _ _ (hless hsave))
      · rename_i kind hanchor
        split
        · rename_i hholds
          exact .through ⟨_, hanchor, rfl, rfl, hholds⟩ (fun hstep ↦ (hstep.leadsTo hanchor).1)
            (not_waits hanchor nofun nofun) (ih (pc + 1) _ _ (hless hanchor))
        · rename_i hfails
          exact .noted (fun hstep ↦ hfails (hstep.leadsTo hanchor).2.2)
            (not_waits hanchor nofun nofun)
      · rename_i set hchar
        exact hwaiting hchar (fun h ↦ Nat.succ_ne_self place h.2.1.symm) (.inr ⟨set, hchar⟩)
      · rename_i haccept
        exact hwaiting haccept (fun h ↦ h) (.inl haccept)

/-- An address that can be reached is settled with what was found before it. -/
theorem reach_search (pc : Nat) (slots : Slots) (found : List Nat × List Thread) :
    Reached program text place pc found
      (reach program text place (program.code.size + 1) pc slots found) := by
  refine reach_reached _ pc slots found (Nat.lt_succ_of_le ?_)
  calc (unseen program found.1).card
      ≤ (Finset.range program.code.size).card := Finset.card_le_card Finset.sdiff_subset
    _ = program.code.size := Finset.card_range _

/-! ### Threads that wait -/

/-- Whatever has been seen at a place is settled. -/
structure Explored (program : Program) (text : Array Char) (place : Nat)
    (found : List Nat × List Thread) : Prop where
  settled : ∀ {q}, q ∈ found.1 → Settled program text place found q
  waits : ∀ thread ∈ found.2, Waits program.code thread.pc

theorem explored_nil : Explored program text place ([], []) := ⟨nofun, nofun⟩

theorem Explored.reached (h : Explored program text place found)
    (hreached : Reached program text place pc found found') :
    Explored program text place found' where
  settled hq := (hreached.settled hq).elim
    (fun hbefore ↦ (h.settled hbefore).mono hreached.seen hreached.threads) fun hdone ↦ hdone
  waits thread ht := (hreached.sound ht).elim (h.waits thread) fun hsound ↦ hsound.1

/-- Where no thread waits, no character is consumed. -/
theorem Step.place_eq {code : Array Instr} {i pc' i' : Nat} (hstep : Step code text pc i pc' i')
    (hgoes : ¬Waits code pc) : i' = i := by
  obtain ⟨instr, hinstr, hleads⟩ := hstep
  cases instr with
  | char set => exact absurd (.inr ⟨set, hinstr⟩) hgoes
  | anchor kind => exact hleads.2.1
  | save slot => exact hleads.2
  | split first second => exact hleads.2
  | jump target => exact hleads.2
  | accept => exact hleads.elim

/-- What can be accepted from an address that has been seen can be accepted by a thread that waits. -/
theorem Explored.exists_thread (h : Explored program text place found) {j : Nat}
    (hpc : pc ∈ found.1) (haccepted : Accepted program.code text pc place j) :
    ∃ thread ∈ found.2, Accepted program.code text thread.pc place j := by
  obtain ⟨n, hn⟩ := haccepted
  induction n generalizing pc with
  | zero =>
    cases hn with
    | done haccept =>
      obtain ⟨thread, ht, rfl⟩ := (h.settled hpc).waits (.inl haccept)
      exact ⟨thread, ht, 0, .done haccept⟩
  | succ n ih =>
    by_cases hwaits : Waits program.code pc
    · obtain ⟨thread, ht, rfl⟩ := (h.settled hpc).waits hwaits
      exact ⟨thread, ht, n + 1, hn⟩
    · cases hn with
      | step hstep hrest =>
        cases hstep.place_eq hwaits
        exact ih ((h.settled hpc).next hstep) hrest

/-- Assumes: an address that has just been explored. What the threads that wait can accept is what
could be accepted before, or from the address. -/
theorem Explored.exists_thread_iff (h : Explored program text place found)
    (hreached : Reached program text place pc found found') (j : Nat) :
    (∃ thread ∈ found'.2, Accepted program.code text thread.pc place j) ↔
      (∃ thread ∈ found.2, Accepted program.code text thread.pc place j) ∨
        Accepted program.code text pc place j := by
  constructor
  · rintro ⟨thread, ht, haccepted⟩
    rcases hreached.sound ht with hbefore | ⟨-, hsound⟩
    · exact .inl ⟨thread, hbefore, haccepted⟩
    · exact .inr (hsound haccepted)
  · rintro (⟨thread, ht, haccepted⟩ | haccepted)
    · exact ⟨thread, hreached.threads ht, haccepted⟩
    · exact (h.reached hreached).exists_thread hreached.start haccepted

/-! ### From place to place -/

/-- Threads that wait, none of which accepts, have been let go on to the next place. -/
structure Advanced (program : Program) (text : Array Char) (place : Nat) (threads : List Thread)
    (found : List Nat × List Thread) (next : List Thread) : Prop where
  waits : ∀ thread ∈ next, Waits program.code thread.pc
  within : next ≠ [] → found.2 ≠ [] ∨ place < text.size
  accepted : ∀ j, (∃ thread ∈ next, Accepted program.code text thread.pc (place + 1) j) ↔
    (∃ thread ∈ found.2, Accepted program.code text thread.pc (place + 1) j) ∨
      ∃ thread ∈ threads, Accepted program.code text thread.pc place j

/-- Assumes: a thread that has been let go on, and others after it. -/
theorem Advanced.cons {thread : Thread} {threads next : List Thread}
    (h : Advanced program text place threads found' next)
    (hwithin : found'.2 ≠ [] → found.2 ≠ [] ∨ place < text.size)
    (hthread : ∀ j, (∃ t ∈ found'.2, Accepted program.code text t.pc (place + 1) j) ↔
      (∃ t ∈ found.2, Accepted program.code text t.pc (place + 1) j) ∨
        Accepted program.code text thread.pc place j) :
    Advanced program text place (thread :: threads) found next where
  waits := h.waits
  within hne := (h.within hne).elim hwithin .inr
  accepted j := by
    rw [h.accepted, hthread, or_assoc, List.exists_mem_cons_iff]

/-- A thread that waits for a character accepts what can be accepted behind the character. -/
theorem accepted_char_iff {set : CharSet} (hchar : program.code[pc]? = some (.char set)) (j : Nat) :
    Accepted program.code text pc place j ↔
      (charAt text place).any (set.has ·) = true ∧
        Accepted program.code text (pc + 1) (place + 1) j := by
  rw [charAt, Option.any_eq_true]
  constructor
  · rintro ⟨n, hn⟩
    obtain ⟨m, _, _, -, ⟨rfl, rfl, hhas⟩, hrest⟩ := hn.behind hchar nofun
    exact ⟨hhas, m, hrest⟩
  · rintro ⟨hhas, hrest⟩
    exact hrest.before hchar ⟨rfl, rfl, hhas⟩

/-- Threads that wait accept if one of them can accept at once, and are let go on otherwise. -/
theorem advance_spec (threads : List Thread) (found : List Nat × List Thread)
    (hwaits : ∀ thread ∈ threads, Waits program.code thread.pc)
    (hexplored : Explored program text (place + 1) found) :
    ((advance program text place threads found).1.isSome ∧
        ∃ thread ∈ threads, program.code[thread.pc]? = some .accept) ∨
      (advance program text place threads found).1 = none ∧
        Advanced program text place threads found (advance program text place threads found).2 := by
  induction threads generalizing found with
  | nil =>
    refine .inr ⟨rfl, fun thread ht ↦ ?_, fun hne ↦ .inl fun hnil ↦ hne ?_, fun j ↦ ?_⟩
    · exact hexplored.waits thread (List.mem_reverse.mp ht)
    · change found.2.reverse = []
      rw [hnil, List.reverse_nil]
    · change (∃ thread ∈ found.2.reverse, _) ↔ _
      simp only [List.mem_reverse, List.not_mem_nil, false_and, exists_false, or_false]
  | cons thread threads ih =>
    have hlater : ∀ t ∈ threads, Waits program.code t.pc :=
      fun t ht ↦ hwaits t (List.mem_cons_of_mem _ ht)
    rcases hwaits thread (List.mem_cons_self ..) with haccept | ⟨set, hchar⟩
    · have hgives : advance program text place (thread :: threads) found =
          (some thread.slots, found.2.reverse) := by
        unfold advance
        rw [haccept]
      rw [hgives]
      exact .inl ⟨rfl, thread, List.mem_cons_self .., haccept⟩
    · by_cases hhas : (charAt text place).any (set.has ·) = true
      · let reached := reach program text (place + 1) (program.code.size + 1) (thread.pc + 1)
          thread.slots found
        have hgives : advance program text place (thread :: threads) found =
            advance program text place threads reached := by
          rw [advance, hchar]
          exact if_pos hhas
        have hreached : Reached program text (place + 1) (thread.pc + 1) found reached :=
          reach_search ..
        rw [hgives]
        refine (ih reached hlater (hexplored.reached hreached)).imp
          (And.imp_right fun ⟨t, ht, haccept⟩ ↦ ⟨t, List.mem_cons_of_mem _ ht, haccept⟩)
          (And.imp_right fun h ↦ h.cons (fun _ ↦ .inr ?_) fun j ↦ ?_)
        · obtain ⟨c, hc, -⟩ := (Option.any_eq_true ..).mp hhas
          exact (Array.getElem?_eq_some_iff.mp hc).1
        · rw [hexplored.exists_thread_iff hreached, accepted_char_iff hchar, and_iff_right hhas]
      · have hgives : advance program text place (thread :: threads) found =
            advance program text place threads found := by
          rw [advance, hchar]
          exact if_neg hhas
        rw [hgives]
        refine (ih found hlater hexplored).imp
          (And.imp_right fun ⟨t, ht, haccept⟩ ↦ ⟨t, List.mem_cons_of_mem _ ht, haccept⟩)
          (And.imp_right fun h ↦ h.cons .inl fun j ↦ ?_)
        rw [accepted_char_iff hchar]
        exact (or_iff_left fun h ↦ hhas h.1).symm

/-! ### Whole searches -/

theorem runThreads_cons (fuel place : Nat) (thread : Thread) (threads : List Thread)
    (best : Option Slots) :
    runThreads program text (fuel + 1) place (thread :: threads) best =
      runThreads program text fuel (place + 1)
        (advance program text place (thread :: threads) ([], [])).2
        ((advance program text place (thread :: threads) ([], [])).1.orElse fun _ ↦ best) :=
  rfl

/-- An acceptance that has been found is not given up. -/
theorem runThreads_isSome (fuel place : Nat) (threads : List Thread) {best : Option Slots}
    (h : best.isSome) : (runThreads program text fuel place threads best).isSome := by
  induction fuel generalizing place threads best with
  | zero => exact h
  | succ fuel ih =>
    cases threads with
    | nil => exact h
    | cons thread threads =>
      rw [runThreads_cons]
      refine ih _ _ ?_
      cases (advance program text place (thread :: threads) ([], [])).1 with
      | none => exact h
      | some slots => rfl

/-- Assumes: threads that wait at a place of the text, and fuel up to its end. Running them finds an
acceptance if and only if one of them can accept. -/
theorem runThreads_isSome_iff (fuel place : Nat) (threads : List Thread)
    (hwaits : ∀ thread ∈ threads, Waits program.code thread.pc)
    (hwithin : threads ≠ [] → place ≤ text.size) (hfuel : text.size + 2 ≤ place + fuel) :
    (runThreads program text fuel place threads none).isSome ↔
      ∃ j, ∃ thread ∈ threads, Accepted program.code text thread.pc place j := by
  induction fuel generalizing place threads with
  | zero =>
    have hnil : threads = [] := by
      by_contra hne
      have hend : place ≤ text.size := hwithin hne
      omega
    rw [hnil]
    exact ⟨nofun, nofun⟩
  | succ fuel ih =>
    cases threads with
    | nil => exact ⟨nofun, nofun⟩
    | cons thread threads =>
      rw [runThreads_cons]
      rcases advance_spec (thread :: threads) ([], []) hwaits explored_nil with
        ⟨hsome, t, ht, haccept⟩ | ⟨hnone, hadvanced⟩
      · obtain ⟨slots, hslots⟩ := Option.isSome_iff_exists.mp hsome
        rw [hslots]
        exact iff_of_true (runThreads_isSome _ _ _ rfl) ⟨place, t, ht, 0, .done haccept⟩
      · have hnext : (advance program text place (thread :: threads) ([], [])).2 ≠ [] →
            place + 1 ≤ text.size :=
          fun hne ↦ (hadvanced.within hne).resolve_left fun h ↦ h rfl
        rw [hnone, Option.orElse_none, ih _ _ hadvanced.waits hnext (by omega)]
        refine exists_congr fun j ↦ (hadvanced.accepted j).trans (or_iff_right ?_)
        rintro ⟨t, ht, -⟩
        exact absurd ht List.not_mem_nil

theorem matchAt_isSome_iff (hplace : place ≤ text.size) :
    (matchAt program text place).isSome ↔ ∃ j, Accepted program.code text 0 place j := by
  let slots : Slots := Array.replicate (2 * (program.names.length + 1)) none
  let found := reach program text place (program.code.size + 1) 0 slots ([], [])
  have hreached : Reached program text place 0 ([], []) found := reach_search ..
  have hexplored : Explored program text place found := explored_nil.reached hreached
  change (runThreads program text (text.size + 2 - place) place found.2.reverse none).isSome ↔ _
  rw [runThreads_isSome_iff _ _ _ (fun t ht ↦ hexplored.waits t (List.mem_reverse.mp ht))
    (fun _ ↦ hplace) (by omega)]
  refine exists_congr fun j ↦ Iff.trans ?_
    ((explored_nil.exists_thread_iff hreached j).trans (or_iff_right ?_))
  · simp only [List.mem_reverse]
  · rintro ⟨t, ht, -⟩
    exact absurd ht List.not_mem_nil

theorem findFrom_isSome_iff (tries place : Nat) (hwithin : place + tries ≤ text.size + 1) :
    (findFrom program text tries place).isSome ↔
      ∃ i, place ≤ i ∧ i < place + tries ∧ ∃ j, Accepted program.code text 0 i j := by
  induction tries generalizing place with
  | zero =>
    refine iff_of_false nofun ?_
    rintro ⟨i, hfirst, hlast, -⟩
    exact absurd hlast (Nat.not_lt_of_le hfirst)
  | succ tries ih =>
    have hplace : place ≤ text.size := by omega
    have hmatch : (matchAt program text place).isSome ↔ ∃ j, Accepted program.code text 0 place j :=
      matchAt_isSome_iff hplace
    unfold findFrom
    cases hfound : matchAt program text place with
    | some slots =>
      rw [hfound] at hmatch
      exact iff_of_true rfl ⟨place, Nat.le_refl _, by omega, hmatch.mp rfl⟩
    | none =>
      rw [hfound] at hmatch
      dsimp only
      rw [ih (place + 1) (by omega)]
      constructor
      · rintro ⟨i, hfirst, hlast, haccepted⟩
        exact ⟨i, by omega, by omega, haccepted⟩
      · rintro ⟨i, hfirst, hlast, haccepted⟩
        have hne : i ≠ place := by
          rintro rfl
          cases hmatch.mpr haccepted
        exact ⟨i, by omega, by omega, haccepted⟩

/-- A program matches a text if and only if it can accept from one of its places. -/
theorem isMatch_iff_accepted (program : Program) (s : String) :
    program.isMatch s = true ↔
      ∃ i, i ≤ s.toList.length ∧ ∃ j, Accepted program.code s.toList.toArray 0 i j := by
  have hsize : s.toList.toArray.size = s.toList.length := List.size_toArray
  unfold isMatch find
  rw [findFrom_isSome_iff _ _ (by omega), hsize]
  refine exists_congr fun i ↦ ?_
  rw [and_iff_right (Nat.zero_le i), Nat.sub_zero, Nat.zero_add, Nat.lt_succ_iff]

end TreeScript.Pattern.Program
