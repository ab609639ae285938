import Mathlib.Logic.Relation
import TreeScript.Pattern.Program

/-!
# What patterns match

An expression relates the places of a text where a match of it begins to those where it ends
(`Expr.Matches`). To write counted repetitions out leaves this relation as it is (`matches_expand`).

A program is described by its acceptances: from an address and a place, a number of steps lead to an
instruction that accepts (`Program.Accepts`). A block of instructions runs a relation if control that
comes in at its beginning leaves it at its end, at a place to which the relation leads, and if it can
do so for each of these places (`Program.Runs`). The instructions of an expression are put together
from such blocks (`runs_instructions`), so a program accepts what the expression matches
(`accepted_ofExpr_iff`).
-/

set_option autoImplicit false

namespace TreeScript.Pattern

/-! ### Expressions -/

/-- A number of steps of a relation in a row. -/
def Times (r : Nat → Nat → Prop) : Nat → Nat → Nat → Prop
  | 0 => Eq
  | n + 1 => Relation.Comp (Times r n) r

section

variable {r : Nat → Nat → Prop} {n : Nat} {i j k : Nat}

theorem times_zero (r : Nat → Nat → Prop) : Times r 0 = Eq := rfl

theorem times_succ (r : Nat → Nat → Prop) (n : Nat) :
    Times r (n + 1) = Relation.Comp (Times r n) r := rfl

theorem times_one (r : Nat → Nat → Prop) : Times r 1 = r :=
  Relation.eq_comp

/-- The first step may be set apart just as well as the last one. -/
theorem times_succ' (r : Nat → Nat → Prop) (n : Nat) :
    Times r (n + 1) = Relation.Comp r (Times r n) := by
  induction n with
  | zero => rw [times_one, times_zero, Relation.comp_eq]
  | succ n ih =>
    calc Times r (n + 2) = Relation.Comp (Relation.Comp r (Times r n)) r := by rw [times_succ, ih]
      _ = Relation.Comp r (Times r (n + 1)) := by rw [Relation.comp_assoc, times_succ]

theorem reflTransGen_iff_times : Relation.ReflTransGen r i j ↔ ∃ n, Times r n i j := by
  constructor
  · intro h
    induction h with
    | refl => exact ⟨0, rfl⟩
    | tail _ hlast ih =>
      obtain ⟨n, hn⟩ := ih
      exact ⟨n + 1, _, hn, hlast⟩
  · rintro ⟨n, hn⟩
    induction n generalizing j with
    | zero => exact hn ▸ .refl
    | succ n ih =>
      obtain ⟨k, hfirst, hlast⟩ := hn
      exact (ih hfirst).tail hlast

theorem transGen_iff_times : Relation.TransGen r i j ↔ ∃ n, Times r (n + 1) i j := by
  rw [Relation.TransGen.tail'_iff]
  constructor
  · rintro ⟨k, hfirst, hlast⟩
    obtain ⟨n, hn⟩ := reflTransGen_iff_times.mp hfirst
    exact ⟨n, k, hn, hlast⟩
  · rintro ⟨n, k, hfirst, hlast⟩
    exact ⟨k, reflTransGen_iff_times.mpr ⟨n, hfirst⟩, hlast⟩

theorem times_add (r : Nat → Nat → Prop) (n m : Nat) :
    Relation.Comp (Times r n) (Times r m) = Times r (n + m) := by
  induction m with
  | zero => rw [times_zero, Relation.comp_eq, Nat.add_zero]
  | succ m ih => rw [times_succ, ← Relation.comp_assoc, ih, ← Nat.add_assoc, times_succ]

/-- At least so many steps and one more. -/
theorem comp_transGen_iff :
    Relation.Comp (Times r n) (Relation.TransGen r) i j ↔ ∃ k, n + 1 ≤ k ∧ Times r k i j := by
  constructor
  · rintro ⟨k, hfirst, hrest⟩
    obtain ⟨m, hm⟩ := transGen_iff_times.mp hrest
    refine ⟨n + (m + 1), Nat.add_le_add_left (Nat.le_add_left 1 m) n, ?_⟩
    rw [← times_add]
    exact ⟨k, hfirst, hm⟩
  · rintro ⟨k, hk, htimes⟩
    obtain ⟨m, rfl⟩ := Nat.exists_eq_add_of_le hk
    rw [Nat.add_assoc, Nat.add_comm 1 m, ← times_add] at htimes
    obtain ⟨k, hfirst, hrest⟩ := htimes
    exact ⟨k, hfirst, transGen_iff_times.mpr ⟨m, hrest⟩⟩

/-- So many steps and at most some more. -/
theorem comp_atMost_iff {extra : Nat} :
    Relation.Comp (Times r n) (fun i j ↦ ∃ k, k ≤ extra ∧ Times r k i j) i j ↔
      ∃ k, n ≤ k ∧ k ≤ n + extra ∧ Times r k i j := by
  constructor
  · rintro ⟨k, hfirst, m, hm, hrest⟩
    refine ⟨n + m, Nat.le_add_right n m, Nat.add_le_add_left hm n, ?_⟩
    rw [← times_add]
    exact ⟨k, hfirst, hrest⟩
  · rintro ⟨k, hk, hextra, htimes⟩
    obtain ⟨m, rfl⟩ := Nat.exists_eq_add_of_le hk
    rw [← times_add] at htimes
    obtain ⟨k, hfirst, hrest⟩ := htimes
    exact ⟨k, hfirst, m, Nat.le_of_add_le_add_left hextra, hrest⟩

end

namespace Expr

/-- From where to where an expression matches a text. A repetition whose bounds are the wrong way
round, which no pattern can be read as, takes the lower one for both. -/
def Matches (text : Array Char) : Expr → Nat → Nat → Prop
  | .empty => Eq
  | .char set => fun i j ↦ j = i + 1 ∧ ∃ c, text[i]? = some c ∧ set.has c = true
  | .anchor kind => fun i j ↦
    j = i ∧ Program.holds kind (Program.charBefore text i) (Program.charAt text i) = true
  | .capture _ body => body.Matches text
  | .star body _ => Relation.ReflTransGen (body.Matches text)
  | .plus body _ => Relation.TransGen (body.Matches text)
  | .optional body _ => Relation.ReflGen (body.Matches text)
  | .repeat body least most _ => fun i j ↦
    ∃ n, least ≤ n ∧ (∀ m, most = some m → n ≤ max least m) ∧ Times (body.Matches text) n i j
  | .concat left right => Relation.Comp (left.Matches text) (right.Matches text)
  | .alternate left right => fun i j ↦ left.Matches text i j ∨ right.Matches text i j

/-- An expression without counted repetitions. -/
def Uncounted : Expr → Prop
  | .empty | .char _ | .anchor _ => True
  | .capture _ body | .star body _ | .plus body _ | .optional body _ => body.Uncounted
  | .repeat .. => False
  | .concat left right | .alternate left right => left.Uncounted ∧ right.Uncounted

variable {text : Array Char} {body : Expr}

/-- A match of an expression that begins within a text ends within it. -/
theorem Matches.within {e : Expr} {i j : Nat} (h : e.Matches text i j) (hi : i ≤ text.size) :
    j ≤ text.size := by
  have hsteps {r : Nat → Nat → Prop} (hr : ∀ {i j}, r i j → i ≤ text.size → j ≤ text.size) {i j : Nat}
      (h : Relation.ReflTransGen r i j) (hi : i ≤ text.size) : j ≤ text.size := by
    induction h with
    | refl => exact hi
    | tail _ hlast ih => exact hr hlast ih
  induction e generalizing i j with
  | empty => exact h ▸ hi
  | char set =>
    obtain ⟨rfl, c, hc, -⟩ := h
    exact (Array.getElem?_eq_some_iff.mp hc).1
  | anchor kind => exact h.1 ▸ hi
  | capture number body ih => exact ih h hi
  | star body greedy ih => exact hsteps ih h hi
  | plus body greedy ih => exact hsteps ih h.to_reflTransGen hi
  | optional body greedy ih =>
    cases h with
    | refl => exact hi
    | single h => exact ih h hi
  | «repeat» body least most greedy ih =>
    obtain ⟨n, -, -, hn⟩ := h
    exact hsteps ih (reflTransGen_iff_times.mpr ⟨n, hn⟩) hi
  | concat left right ihl ihr =>
    obtain ⟨k, hl, hr⟩ := h
    exact ihr hr (ihl hl hi)
  | alternate left right ihl ihr => exact h.elim (fun h ↦ ihl h hi) fun h ↦ ihr h hi

/-! ### Counted repetitions -/

theorem matches_copies (body : Expr) (n : Nat) :
    (body.copies n).Matches text = Times (body.Matches text) n := by
  induction n with
  | zero => rfl
  | succ n ih =>
    cases n with
    | zero => exact (times_one _).symm
    | succ n =>
      change Relation.Comp ((body.copies (n + 1)).Matches text) (body.Matches text) = _
      rw [ih]
      rfl

theorem matches_upToTimes (body : Expr) (greedy : Bool) (n : Nat) :
    (body.upToTimes greedy n).Matches text =
      fun i j ↦ ∃ k, k ≤ n ∧ Times (body.Matches text) k i j := by
  have hoptional (n : Nat) (i j : Nat) :
      Relation.ReflGen (Relation.Comp (body.Matches text) fun i j ↦
          ∃ k, k ≤ n ∧ Times (body.Matches text) k i j) i j ↔
        ∃ k, k ≤ n + 1 ∧ Times (body.Matches text) k i j := by
    rw [Relation.reflGen_iff]
    constructor
    · rintro (rfl | ⟨k, hfirst, m, hm, hrest⟩)
      · exact ⟨0, Nat.zero_le _, rfl⟩
      · refine ⟨m + 1, Nat.succ_le_succ hm, ?_⟩
        rw [times_succ']
        exact ⟨k, hfirst, hrest⟩
    · rintro ⟨m, hm, htimes⟩
      cases m with
      | zero => exact .inl htimes.symm
      | succ m =>
        rw [times_succ'] at htimes
        obtain ⟨k, hfirst, hrest⟩ := htimes
        exact .inr ⟨k, hfirst, m, Nat.le_of_succ_le_succ hm, hrest⟩
  induction n with
  | zero =>
    funext i j
    refine propext ⟨fun h ↦ ⟨0, Nat.le_refl _, h⟩, ?_⟩
    rintro ⟨k, hk, h⟩
    cases Nat.le_zero.mp hk
    exact h
  | succ n ih =>
    funext i j
    refine propext (Iff.trans ?_ (hoptional n i j))
    cases n with
    | zero =>
      have hnone : (fun i j ↦ ∃ k, k ≤ 0 ∧ Times (body.Matches text) k i j) = Eq := ih.symm
      rw [hnone, Relation.comp_eq]
      rfl
    | succ n =>
      change Relation.ReflGen (Relation.Comp (body.Matches text)
        ((body.upToTimes greedy (n + 1)).Matches text)) i j ↔ _
      rw [ih]

/-- To write counted repetitions out changes nothing about what an expression matches. -/
theorem matches_expand (e : Expr) : e.expand.Matches text = e.Matches text := by
  induction e with
  | empty | char | anchor => rfl
  | capture number body ih => exact ih
  | star body greedy ih => exact congrArg Relation.ReflTransGen ih
  | plus body greedy ih => exact congrArg Relation.TransGen ih
  | optional body greedy ih => exact congrArg Relation.ReflGen ih
  | concat left right ihl ihr => exact congrArg₂ Relation.Comp ihl ihr
  | alternate left right ihl ihr =>
    funext i j
    exact congrArg₂ Or (congrFun₂ ihl i j) (congrFun₂ ihr i j)
  | «repeat» body least most greedy ih =>
    funext i j
    refine propext ?_
    cases most with
    | none =>
      cases least with
      | zero =>
        change Relation.ReflTransGen (body.expand.Matches text) i j ↔ _
        rw [ih, reflTransGen_iff_times]
        exact exists_congr fun n ↦ ⟨fun h ↦ ⟨Nat.zero_le n, nofun, h⟩, fun h ↦ h.2.2⟩
      | succ n =>
        have hleast : Relation.Comp (Times (body.Matches text) n)
            (Relation.TransGen (body.Matches text)) i j ↔
              (Expr.repeat body (n + 1) none greedy).Matches text i j :=
          comp_transGen_iff.trans (exists_congr fun _ ↦ and_congr_right fun _ ↦
            (and_iff_right nofun).symm)
        have hexpand : (Expr.repeat body (n + 1) none greedy).expand =
            if n = 0 then .plus body.expand greedy
            else .concat (copies body.expand n) (.plus body.expand greedy) := rfl
        rw [← hleast, hexpand]
        split
        · rename_i hzero
          rw [Matches, ih, hzero, times_zero, Relation.eq_comp]
        · rw [Matches, Matches, matches_copies, ih]
    | some most =>
      have hbounds (k : Nat) : k ≤ least + (most - least) ↔
          ∀ m, some most = some m → k ≤ max least m := by
        have hmax : least + (most - least) = max least most := by omega
        rw [hmax]
        exact ⟨fun h m hm ↦ Option.some.inj hm ▸ h, fun h ↦ h most rfl⟩
      have hmost : Relation.Comp (Times (body.Matches text) least)
          (fun i j ↦ ∃ k, k ≤ most - least ∧ Times (body.Matches text) k i j) i j ↔
            (Expr.repeat body least (some most) greedy).Matches text i j :=
        comp_atMost_iff.trans (exists_congr fun k ↦ and_congr_right fun _ ↦
          and_congr_left fun _ ↦ hbounds k)
      have hexpand : (Expr.repeat body least (some most) greedy).expand =
          if most = least then copies body.expand least
          else if least = 0 then upToTimes body.expand greedy most
          else .concat (copies body.expand least) (upToTimes body.expand greedy (most - least)) :=
        rfl
      rw [← hmost, hexpand]
      split
      · rename_i hsame
        have hnone : (fun i j ↦ ∃ k, k ≤ most - least ∧ Times (body.Matches text) k i j) = Eq := by
          rw [hsame, Nat.sub_self, ← matches_upToTimes body greedy]
          rfl
        rw [matches_copies, ih, hnone, Relation.comp_eq]
      · split
        · rename_i hzero
          rw [hzero, matches_upToTimes, ih, times_zero, Relation.eq_comp, Nat.sub_zero]
        · rw [Matches, matches_copies, matches_upToTimes, ih]

theorem uncounted_copies (h : body.Uncounted) (n : Nat) : (body.copies n).Uncounted := by
  induction n with
  | zero => exact trivial
  | succ n ih =>
    cases n with
    | zero => exact h
    | succ n => exact ⟨ih, h⟩

theorem uncounted_upToTimes (h : body.Uncounted) (greedy : Bool) (n : Nat) :
    (body.upToTimes greedy n).Uncounted := by
  induction n with
  | zero => exact trivial
  | succ n ih =>
    cases n with
    | zero => exact h
    | succ n => exact ⟨h, ih⟩

/-- No counted repetition is left. -/
theorem uncounted_expand (e : Expr) : e.expand.Uncounted := by
  induction e with
  | empty | char | anchor => exact trivial
  | capture number body ih => exact ih
  | star body greedy ih => exact ih
  | plus body greedy ih => exact ih
  | optional body greedy ih => exact ih
  | concat left right ihl ihr => exact ⟨ihl, ihr⟩
  | alternate left right ihl ihr => exact ⟨ihl, ihr⟩
  | «repeat» body least most greedy ih =>
    cases most with
    | none =>
      cases least with
      | zero => exact ih
      | succ n =>
        change Uncounted (if n = 0 then _ else _)
        split
        · exact ih
        · exact ⟨uncounted_copies ih n, ih⟩
    | some most =>
      change Uncounted (if most = least then _ else if least = 0 then _ else _)
      split
      · exact uncounted_copies ih least
      · split
        · exact uncounted_upToTimes ih greedy most
        · exact ⟨uncounted_copies ih least, uncounted_upToTimes ih greedy _⟩

end Expr

/-! ### Programs -/

/-- Where an instruction leads from its address and a place. -/
def Instr.LeadsTo (text : Array Char) (pc i : Nat) (pc' i' : Nat) : Instr → Prop
  | .char set => pc' = pc + 1 ∧ i' = i + 1 ∧ ∃ c, text[i]? = some c ∧ set.has c = true
  | .anchor kind => pc' = pc + 1 ∧ i' = i ∧
    Program.holds kind (Program.charBefore text i) (Program.charAt text i) = true
  | .save _ => pc' = pc + 1 ∧ i' = i
  | .split first second => (pc' = first ∨ pc' = second) ∧ i' = i
  | .jump target => pc' = target ∧ i' = i
  | .accept => False

/-- Which of its two addresses a choice prefers makes no difference to where it leads. -/
theorem Instr.leadsTo_choice {text : Array Char} {pc i pc' i' again leave : Nat} (greedy : Bool) :
    (Instr.choice greedy again leave).LeadsTo text pc i pc' i' ↔
      (pc' = again ∨ pc' = leave) ∧ i' = i := by
  cases greedy with
  | true => exact Iff.rfl
  | false => exact and_congr_left fun _ ↦ or_comm

namespace Program

variable {code : Array Instr} {text : Array Char}

/-- A step of a thread, from an address and a place to others. -/
def Step (code : Array Instr) (text : Array Char) (pc i pc' i' : Nat) : Prop :=
  ∃ instr, code[pc]? = some instr ∧ instr.LeadsTo text pc i pc' i'

/-- From an address and a place, a number of steps lead to an instruction that accepts, at another
place. -/
inductive Accepts (code : Array Instr) (text : Array Char) : Nat → Nat → Nat → Nat → Prop
  | done {pc i : Nat} (hinstr : code[pc]? = some .accept) : Accepts code text 0 pc i i
  | step {n pc i pc' i' j : Nat} (hstep : Step code text pc i pc' i')
      (hrest : Accepts code text n pc' i' j) : Accepts code text (n + 1) pc i j

/-- From an address and a place, a thread can get to an instruction that accepts. -/
def Accepted (code : Array Instr) (text : Array Char) (pc i j : Nat) : Prop :=
  ∃ n, Accepts code text n pc i j

section

variable {n pc i pc' i' j : Nat} {instr : Instr}

theorem Step.leadsTo (hstep : Step code text pc i pc' i') (hinstr : code[pc]? = some instr) :
    instr.LeadsTo text pc i pc' i' := by
  obtain ⟨other, hother, hleads⟩ := hstep
  cases hinstr.symm.trans hother
  exact hleads

theorem Step.accepted (hstep : Step code text pc i pc' i') (h : Accepted code text pc' i' j) :
    Accepted code text pc i j := by
  obtain ⟨n, hn⟩ := h
  exact ⟨n + 1, .step hstep hn⟩

theorem Accepted.before (h : Accepted code text pc' i' j) (hinstr : code[pc]? = some instr)
    (hleads : instr.LeadsTo text pc i pc' i') : Accepted code text pc i j :=
  Step.accepted ⟨instr, hinstr, hleads⟩ h

/-- An instruction that does not accept has to lead to where something is accepted. -/
theorem Accepts.behind (h : Accepts code text n pc i j) (hinstr : code[pc]? = some instr)
    (hgoes : instr ≠ .accept) :
    ∃ m pc' i', m < n ∧ instr.LeadsTo text pc i pc' i' ∧ Accepts code text m pc' i' j := by
  cases h with
  | done h =>
    cases hinstr.symm.trans h
    exact absurd rfl hgoes
  | step hstep hrest => exact ⟨_, _, _, Nat.lt_succ_self _, hstep.leadsTo hinstr, hrest⟩

theorem accepts_accept_iff (hinstr : code[pc]? = some .accept) :
    Accepts code text n pc i j ↔ n = 0 ∧ i = j := by
  constructor
  · intro h
    cases h with
    | done => exact ⟨rfl, rfl⟩
    | step hstep => exact (hstep.leadsTo hinstr).elim
  · rintro ⟨rfl, rfl⟩
    exact .done hinstr

end

/-! ### Blocks -/

/-- The instructions from an address up to another one run a relation: a thread that comes in gets to
the end in one of the places that the relation leads to, if it accepts at all, and it can get to each of
these places. -/
structure Runs (code : Array Instr) (text : Array Char) (start stop : Nat)
    (r : Nat → Nat → Prop) : Prop where
  sound : ∀ {n i j}, Accepts code text n start i j →
    ∃ m k, m ≤ n ∧ r i k ∧ Accepts code text m stop k j
  complete : ∀ {i j k}, r i k → Accepted code text stop k j → Accepted code text start i j

namespace Runs

variable {start mid stop : Nat} {r s : Nat → Nat → Prop} {greedy : Bool}

theorem refl (start : Nat) : Runs code text start start Eq where
  sound {n i _} h := ⟨n, i, Nat.le_refl n, rfl, h⟩
  complete hplace h := hplace ▸ h

theorem comp (hfirst : Runs code text start mid r) (hlast : Runs code text mid stop s) :
    Runs code text start stop (Relation.Comp r s) where
  sound h := by
    obtain ⟨m, k, hm, hr, hmid⟩ := hfirst.sound h
    obtain ⟨m', k', hm', hs, hstop⟩ := hlast.sound hmid
    exact ⟨m', k', Nat.le_trans hm' hm, ⟨k, hr, hs⟩, hstop⟩
  complete := by
    rintro i _ k ⟨place, hr, hs⟩ h
    exact hfirst.complete hr (hlast.complete hs h)

/-- An instruction that leads to the next one runs the places that it leads to. -/
theorem single {instr : Instr} (hinstr : code[start]? = some instr) (hgoes : instr ≠ .accept)
    (hnext : ∀ i pc' i', instr.LeadsTo text start i pc' i' ↔ pc' = start + 1 ∧ r i i') :
    Runs code text start (start + 1) r where
  sound h := by
    obtain ⟨m, pc', k, hm, hleads, hstop⟩ := h.behind hinstr hgoes
    obtain ⟨rfl, hr⟩ := (hnext _ _ _).mp hleads
    exact ⟨m, k, Nat.le_of_lt hm, hr, hstop⟩
  complete hr h := h.before hinstr ((hnext _ _ _).mpr ⟨rfl, hr⟩)

theorem choice_ne_accept {again leave : Nat} : Instr.choice greedy again leave ≠ .accept := by
  cases greedy <;> exact nofun

theorem optional (hchoice : code[start]? = some (.choice greedy (start + 1) stop))
    (hbody : Runs code text (start + 1) stop r) :
    Runs code text start stop (Relation.ReflGen r) where
  sound h := by
    obtain ⟨m, pc', k, hm, hleads, hchosen⟩ := h.behind hchoice choice_ne_accept
    obtain ⟨rfl | rfl, rfl⟩ := (Instr.leadsTo_choice greedy).mp hleads
    · obtain ⟨m', k', hm', hr, hstop⟩ := hbody.sound hchosen
      exact ⟨m', k', Nat.le_trans hm' (Nat.le_of_lt hm), .single hr, hstop⟩
    · exact ⟨m, k, Nat.le_of_lt hm, .refl, hchosen⟩
  complete hr h := by
    cases hr with
    | refl => exact h.before hchoice ((Instr.leadsTo_choice greedy).mpr ⟨.inr rfl, rfl⟩)
    | single hr =>
      exact (hbody.complete hr h).before hchoice
        ((Instr.leadsTo_choice greedy).mpr ⟨.inl rfl, rfl⟩)

/-- The choice behind the body is come to again and again, with ever fewer steps left. -/
theorem plus (hbody : Runs code text start mid r)
    (hchoice : code[mid]? = some (.choice greedy start (mid + 1))) :
    Runs code text start (mid + 1) (Relation.TransGen r) where
  sound {n i j} h := by
    induction n using Nat.strongRecOn generalizing i with
    | ind n ih =>
      obtain ⟨m, k, hm, hr, hmid⟩ := hbody.sound h
      obtain ⟨m', pc', k', hm', hleads, hchosen⟩ := hmid.behind hchoice choice_ne_accept
      have hless : m' < n := Nat.lt_of_lt_of_le hm' hm
      obtain ⟨rfl | rfl, rfl⟩ := (Instr.leadsTo_choice greedy).mp hleads
      · obtain ⟨l, place, hl, hrest, hstop⟩ := ih m' hless hchosen
        exact ⟨l, place, Nat.le_trans hl (Nat.le_of_lt hless), .head hr hrest, hstop⟩
      · exact ⟨m', k', Nat.le_of_lt hless, .single hr, hchosen⟩
  complete {i j k} hr h := by
    induction hr using Relation.TransGen.head_induction_on with
    | single hlast =>
      exact hbody.complete hlast
        (h.before hchoice ((Instr.leadsTo_choice greedy).mpr ⟨.inr rfl, rfl⟩))
    | head hfirst _ ih =>
      exact hbody.complete hfirst
        (ih.before hchoice ((Instr.leadsTo_choice greedy).mpr ⟨.inl rfl, rfl⟩))

theorem star (hchoice : code[start]? = some (.choice greedy (start + 1) (mid + 1)))
    (hbody : Runs code text (start + 1) mid r) (hjump : code[mid]? = some (.jump start)) :
    Runs code text start (mid + 1) (Relation.ReflTransGen r) where
  sound {n i j} h := by
    induction n using Nat.strongRecOn generalizing i with
    | ind n ih =>
      obtain ⟨m, pc', k, hm, hleads, hchosen⟩ := h.behind hchoice choice_ne_accept
      obtain ⟨rfl | rfl, rfl⟩ := (Instr.leadsTo_choice greedy).mp hleads
      · obtain ⟨m', k', hm', hr, hmid⟩ := hbody.sound hchosen
        obtain ⟨m'', pc', k'', hm'', ⟨rfl, rfl⟩, hagain⟩ := hmid.behind hjump nofun
        have hless : m'' < n := Nat.lt_trans (Nat.lt_of_lt_of_le hm'' hm') hm
        obtain ⟨l, place, hl, hrest, hstop⟩ := ih m'' hless hagain
        exact ⟨l, place, Nat.le_trans hl (Nat.le_of_lt hless), .head hr hrest, hstop⟩
      · exact ⟨m, k, Nat.le_of_lt hm, .refl, hchosen⟩
  complete {i j k} hr h := by
    induction hr using Relation.ReflTransGen.head_induction_on with
    | refl => exact h.before hchoice ((Instr.leadsTo_choice greedy).mpr ⟨.inr rfl, rfl⟩)
    | head hfirst _ ih =>
      exact (hbody.complete hfirst (ih.before hjump ⟨rfl, rfl⟩)).before hchoice
        ((Instr.leadsTo_choice greedy).mpr ⟨.inl rfl, rfl⟩)

theorem alternate (hsplit : code[start]? = some (.split (start + 1) (mid + 1)))
    (hleft : Runs code text (start + 1) mid r) (hjump : code[mid]? = some (.jump stop))
    (hright : Runs code text (mid + 1) stop s) :
    Runs code text start stop fun i k ↦ r i k ∨ s i k where
  sound h := by
    obtain ⟨m, pc', k, hm, ⟨rfl | rfl, rfl⟩, hchosen⟩ := h.behind hsplit nofun
    · obtain ⟨m', k', hm', hr, hmid⟩ := hleft.sound hchosen
      obtain ⟨m'', pc', k'', hm'', ⟨rfl, rfl⟩, hstop⟩ := hmid.behind hjump nofun
      exact ⟨m'', k'', Nat.le_of_lt (Nat.lt_trans (Nat.lt_of_lt_of_le hm'' hm') hm), .inl hr, hstop⟩
    · obtain ⟨m', k', hm', hs, hstop⟩ := hright.sound hchosen
      exact ⟨m', k', Nat.le_trans hm' (Nat.le_of_lt hm), .inr hs, hstop⟩
  complete hplace h := by
    rcases hplace with hr | hs
    · exact (hleft.complete hr (h.before hjump ⟨rfl, rfl⟩)).before hsplit ⟨.inl rfl, rfl⟩
    · exact (hright.complete hs h).before hsplit ⟨.inr rfl, rfl⟩

end Runs

/-! ### The instructions of an expression -/

/-- A list of instructions stands at an address of a program. -/
def Placed (code : Array Instr) (pc : Nat) (block : List Instr) : Prop :=
  ∀ k instr, block[k]? = some instr → code[pc + k]? = some instr

namespace Placed

variable {pc : Nat} {instr : Instr} {block before behind : List Instr}

theorem head (h : Placed code pc (instr :: block)) : code[pc]? = some instr :=
  h 0 instr rfl

theorem tail (h : Placed code pc (instr :: block)) : Placed code (pc + 1) block := by
  intro k other hother
  rw [Nat.add_assoc, Nat.add_comm 1 k]
  exact h (k + 1) other hother

theorem left (h : Placed code pc (before ++ behind)) : Placed code pc before := by
  intro k other hother
  refine h k other ?_
  rw [List.getElem?_append_left (List.getElem?_eq_some_iff.mp hother).1]
  exact hother

theorem right (h : Placed code pc (before ++ behind)) :
    Placed code (pc + before.length) behind := by
  intro k other hother
  rw [Nat.add_assoc]
  refine h _ other ?_
  rw [List.getElem?_append_right (Nat.le_add_right _ _), Nat.add_sub_cancel_left]
  exact hother

end Placed

section

variable {body : Expr}

theorem instructions_plus (body : Expr) (greedy : Bool) (pc : Nat) :
    (Expr.plus body greedy).instructions pc = body.instructions pc ++
      [.choice greedy pc (pc + (body.instructions pc).length + 1)] :=
  rfl

theorem instructions_optional (body : Expr) (greedy : Bool) (pc : Nat) :
    (Expr.optional body greedy).instructions pc =
      .choice greedy (pc + 1) (pc + (body.instructions (pc + 1)).length + 1) ::
        body.instructions (pc + 1) :=
  rfl

/-- A repetition of what may be empty runs it once before it decides whether to go on. -/
theorem instructions_star_of_nullable (h : body.nullable = true) (greedy : Bool) (pc : Nat) :
    (Expr.star body greedy).instructions pc =
      (Expr.optional (.plus body greedy) greedy).instructions pc := by
  have hstop : pc + (body.instructions (pc + 1)).length + 2 =
      pc + 1 + (body.instructions (pc + 1)).length + 1 := by omega
  rw [instructions_optional, instructions_plus, List.length_append, List.length_singleton,
    ← Nat.add_assoc, ← hstop]
  exact if_pos h

/-- A repetition of what cannot be empty jumps back to the choice in front of it. -/
theorem instructions_star_of_not_nullable (h : ¬body.nullable = true) (greedy : Bool) (pc : Nat) :
    (Expr.star body greedy).instructions pc =
      .choice greedy (pc + 1) (pc + (body.instructions (pc + 1)).length + 2) ::
        body.instructions (pc + 1) ++ [.jump pc] :=
  if_neg h

variable {e : Expr} {pc : Nat}

theorem Runs.save {slot : Nat} (hinstr : code[pc]? = some (.save slot)) :
    Runs code text pc (pc + 1) Eq :=
  .single hinstr nofun fun _ _ _ ↦ and_congr_right fun _ ↦ eq_comm

theorem runs_plus {greedy : Bool} (hplaced : Placed code pc ((Expr.plus body greedy).instructions pc))
    (hbody : Placed code pc (body.instructions pc) →
      Runs code text pc (pc + (body.instructions pc).length) (body.Matches text)) :
    Runs code text pc (pc + ((Expr.plus body greedy).instructions pc).length)
      (Relation.TransGen (body.Matches text)) := by
  rw [instructions_plus] at hplaced ⊢
  rw [List.length_append, List.length_singleton, ← Nat.add_assoc]
  exact (hbody hplaced.left).plus hplaced.right.head

theorem runs_optional {greedy : Bool} {r : Nat → Nat → Prop}
    (hplaced : Placed code pc ((Expr.optional body greedy).instructions pc))
    (hbody : Placed code (pc + 1) (body.instructions (pc + 1)) →
      Runs code text (pc + 1) (pc + 1 + (body.instructions (pc + 1)).length) r) :
    Runs code text pc (pc + ((Expr.optional body greedy).instructions pc).length)
      (Relation.ReflGen r) := by
  rw [instructions_optional] at hplaced ⊢
  have hstop : pc + ((body.instructions (pc + 1)).length + 1) =
      pc + 1 + (body.instructions (pc + 1)).length := by omega
  have hchoice := hplaced.head
  rw [Nat.add_assoc, hstop] at hchoice
  rw [List.length_cons, hstop]
  exact .optional hchoice (hbody hplaced.tail)

/-- The instructions of an expression run what it matches. -/
theorem runs_instructions (hcounted : e.Uncounted) (hplaced : Placed code pc (e.instructions pc)) :
    Runs code text pc (pc + (e.instructions pc).length) (e.Matches text) := by
  induction e generalizing pc with
  | empty => exact .refl pc
  | char set => exact .single hplaced.head nofun fun _ _ _ ↦ Iff.rfl
  | anchor kind => exact .single hplaced.head nofun fun _ _ _ ↦ Iff.rfl
  | capture number body ih =>
    have hrest : Placed code (pc + 1) (body.instructions (pc + 1) ++ [.save (2 * number + 1)]) :=
      hplaced.tail
    have hruns := ((Runs.save hplaced.head).comp (ih hcounted hrest.left)).comp
      (Runs.save hrest.right.head)
    rw [Relation.eq_comp, Relation.comp_eq] at hruns
    have hlength : ((Expr.capture number body).instructions pc).length =
        (body.instructions (pc + 1)).length + 2 := List.length_append
    have hstop : pc + ((body.instructions (pc + 1)).length + 2) =
        pc + 1 + (body.instructions (pc + 1)).length + 1 := by omega
    rw [hlength, hstop]
    exact hruns
  | star body greedy ih =>
    by_cases hnullable : body.nullable = true
    · rw [instructions_star_of_nullable hnullable] at hplaced ⊢
      rw [Expr.Matches, ← Relation.reflGen_transGen]
      exact runs_optional hplaced fun hplus ↦ runs_plus hplus (ih hcounted)
    · rw [instructions_star_of_not_nullable hnullable] at hplaced ⊢
      have hrest : Placed code (pc + 1) (body.instructions (pc + 1) ++ [.jump pc]) := hplaced.tail
      have hmid : pc + (body.instructions (pc + 1)).length + 2 =
          pc + 1 + (body.instructions (pc + 1)).length + 1 := by omega
      have hstop : pc + (body.instructions (pc + 1)).length.succ.succ =
          pc + 1 + (body.instructions (pc + 1)).length + 1 := hmid
      have hchoice := hplaced.head
      rw [hmid] at hchoice
      rw [List.length_append, List.length_cons, List.length_singleton, hstop]
      exact .star hchoice (ih hcounted hrest.left) hrest.right.head
  | plus body greedy ih => exact runs_plus hplaced (ih hcounted)
  | optional body greedy ih => exact runs_optional hplaced (ih hcounted)
  | concat left right ihl ihr =>
    have hparts : (Expr.concat left right).instructions pc = left.instructions pc ++
      right.instructions (pc + (left.instructions pc).length) := rfl
    rw [hparts] at hplaced ⊢
    rw [List.length_append, ← Nat.add_assoc]
    exact (ihl hcounted.1 hplaced.left).comp (ihr hcounted.2 hplaced.right)
  | alternate left right ihl ihr =>
    let mid := pc + 1 + (left.instructions (pc + 1)).length
    let stop := mid + 1 + (right.instructions (mid + 1)).length
    have hmid : pc + (left.instructions (pc + 1)).length + 2 = mid + 1 := by omega
    have hparts : (Expr.alternate left right).instructions pc =
        .split (pc + 1) (mid + 1) :: (left.instructions (pc + 1) ++
          .jump stop :: right.instructions (mid + 1)) := by
      have hwritten : (Expr.alternate left right).instructions pc =
          let other := right.instructions (pc + (left.instructions (pc + 1)).length + 2)
          .split (pc + 1) (pc + (left.instructions (pc + 1)).length + 2) ::
            (left.instructions (pc + 1) ++
              .jump (pc + (left.instructions (pc + 1)).length + 2 + other.length) :: other) := rfl
      rw [hmid] at hwritten
      exact hwritten
    have hstop : pc + ((Expr.alternate left right).instructions pc).length = stop := by
      rw [hparts, List.length_cons, List.length_append, List.length_cons]
      omega
    rw [hstop]
    rw [hparts] at hplaced
    exact .alternate hplaced.head (ihl hcounted.1 hplaced.tail.left) hplaced.tail.right.head
      (ihr hcounted.2 hplaced.tail.right.tail)
  | «repeat» body least most greedy ih => exact hcounted.elim

end

/-- The program of an expression. -/
def ofExpr (e : Expr) : Array Instr :=
  (Expr.instructions 0 (.capture 0 e.expand) ++ [Instr.accept]).toArray

/-- A text that can be read as an expression is compiled to the program of the expression. -/
theorem compile_eq_ok {text : String} {parsed : Parsed} (h : parse text = .ok parsed) :
    compile text = .ok ⟨ofExpr parsed.expr, parsed.names, text⟩ := by
  unfold compile
  rw [h]
  rfl

/-- The program of an expression accepts what the expression matches. -/
theorem accepted_ofExpr_iff (e : Expr) (i j : Nat) :
    Accepted (ofExpr e) text 0 i j ↔ e.Matches text i j := by
  let whole : Expr := .capture 0 e.expand
  have hplaced : Placed (ofExpr e) 0 (whole.instructions 0 ++ [.accept]) := by
    intro k instr hinstr
    rw [Nat.zero_add, ofExpr, List.getElem?_toArray]
    exact hinstr
  have hruns : Runs (ofExpr e) text 0 (0 + (whole.instructions 0).length) (whole.Matches text) :=
    runs_instructions (Expr.uncounted_expand e) hplaced.left
  have hmatches : whole.Matches text = e.Matches text := Expr.matches_expand e
  rw [hmatches] at hruns
  have haccept := hplaced.right.head
  constructor
  · rintro ⟨n, hn⟩
    obtain ⟨m, k, -, hk, hrest⟩ := hruns.sound hn
    obtain ⟨-, rfl⟩ := (accepts_accept_iff haccept).mp hrest
    exact hk
  · exact fun h ↦ hruns.complete h ⟨0, .done haccept⟩

end Program

end TreeScript.Pattern
