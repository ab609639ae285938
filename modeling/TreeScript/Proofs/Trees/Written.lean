import TreeScript.Proofs.Trees.JsonText
import TreeScript.Syntax.Decode
import TreeScript.Syntax.Encode

/-!
# Trees that are read back

A tree is read back when reading what it is written as gives the tree again (`Node.Reads`). Every
kind of node is, given that its children are, and that it is one that can be read: a name is not
empty, a chain has steps, an operator stands on one of the three usual sides, a declaration without
a body is native. Kinds that are written alike share a lemma (`reads_list`, `reads_application`,
`reads_single`, `reads_pair`); what it assumes of a kind, how it is written and what it is assembled
from, holds by computation.

A bound on how deep the written value nests is carried along (`Json.Fits`): a child nests one level
deeper than its parent, and a child in a list two levels.
-/

set_option autoImplicit false

namespace TreeScript

namespace Json

/-- A value without numbers that nests at most so deep. -/
structure Fits (k : Nat) (json : Json) : Prop where
  plain : json.Plain
  shallow : json.depth ≤ k

theorem fits_string (k : Nat) (s : String) : (Json.string s).Fits k := ⟨.string s, Nat.zero_le k⟩

theorem fits_bool (k : Nat) (b : Bool) : (Json.bool b).Fits k := ⟨.bool b, Nat.zero_le k⟩

theorem fits_array {k : Nat} {items : List Json} (h : ∀ item ∈ items, item.Fits k) :
    (Json.array items).Fits (k + 1) :=
  ⟨.array fun item hmem ↦ (h item hmem).plain,
    Nat.succ_le_succ (depthAll_le fun item hmem ↦ (h item hmem).shallow)⟩

theorem fits_object {k : Nat} {members : List (String × Json)}
    (h : ∀ member ∈ members, member.2.Fits k) : (Json.object members).Fits (k + 1) :=
  ⟨.object fun member hmem ↦ (h member hmem).plain,
    Nat.succ_le_succ (depthMembers_le fun member hmem ↦ (h member hmem).shallow)⟩

end Json

namespace Node

open Json (Fits fits_string fits_bool fits_array fits_object)
open Parts

theorem fits_stringsJson (k : Nat) (names : List String) : (stringsJson names).Fits (k + 1) := by
  refine fits_array fun item hmem ↦ ?_
  obtain ⟨name, -, rfl⟩ := List.mem_map.mp hmem
  exact fits_string k name

theorem fits_textMember (k : Nat) (name value : String) :
    ∀ member ∈ textMember name value, member.2.Fits k := by
  unfold textMember
  split
  · exact nofun
  · exact List.forall_mem_singleton.mpr (fits_string k value)

theorem fits_flagMember (k : Nat) (name : String) (value : Bool) :
    ∀ member ∈ flagMember name value, member.2.Fits k := by
  unfold flagMember
  split
  · exact List.forall_mem_singleton.mpr (fits_bool k true)
  · exact nofun

/-- A tree that is read back from what it is written as, where arrays and objects nest at most so
deep. -/
structure Reads (k : Nat) (node : Node) : Prop where
  back : ofJson node.toJson = .ok node
  fits : node.toJson.Fits k

/-- A tree is written as an object. -/
theorem part_toJson (node : Node) : part node.toJson = .node (ofJson node.toJson) := by
  cases node with
  | declaration name params body native => cases body <;> rfl
  | branch condition body => cases condition <;> rfl
  | returnStatement argument => cases argument <;> rfl
  | _ => rfl

theorem Reads.part {k : Nat} {node : Node} (h : node.Reads k) :
    Node.part node.toJson = .node (.ok node) := by
  rw [part_toJson, h.back]

/-- Assumes: members a tree is written as, from which it is assembled. The tree is read back. -/
theorem reads_of_members {k : Nat} {node : Node} {kind : String} {members : List (String × Json)}
    (hjson : node.toJson = kindJson kind members)
    (hback : assemble (partMembers (("type", .string kind) :: members)) = .ok node)
    (hfits : ∀ member ∈ members, member.2.Fits k) : node.Reads (k + 1) := by
  constructor
  · rw [hjson]
    exact hback
  · rw [hjson]
    exact fits_object (List.forall_mem_cons.mpr ⟨fits_string k kind, hfits⟩)

/-! ### Lists -/

theorem nodes_toJsonAll {k : Nat} {list : List Node} (h : ∀ node ∈ list, node.Reads k)
    (complain : String → DecodeError) : nodes complain (partAll (toJsonAll list)) = .ok list := by
  induction list with
  | nil => rfl
  | cons node list ih =>
    obtain ⟨hnode, hlist⟩ := List.forall_mem_cons.mp h
    rw [toJsonAll_cons, partAll_cons, hnode.part, nodes, ih hlist]
    rfl

theorem fits_toJsonAll {k : Nat} {list : List Node} (h : ∀ node ∈ list, node.Reads k) :
    (Json.array (toJsonAll list)).Fits (k + 1) := by
  refine fits_array ?_
  induction list with
  | nil => exact nofun
  | cons node list ih =>
    obtain ⟨hnode, hlist⟩ := List.forall_mem_cons.mp h
    exact List.forall_mem_cons.mpr ⟨hnode.fits, ih hlist⟩

theorem strings_stringsJson (names : List String) : (part (stringsJson names)).strings = names := by
  unfold stringsJson
  rw [part, Part.strings, Part.items]
  induction names with
  | nil => rfl
  | cons name names ih =>
    rw [List.map_cons, partAll_cons, part, List.filterMap_cons, ih]

theorem toJsonEntries_eq (entries : List (Node × Node)) :
    toJsonEntries entries = toJsonAll (entries.map fun entry ↦ mapEntry entry.1 entry.2) := by
  induction entries with
  | nil => rfl
  | cons entry entries ih =>
    rw [toJsonEntries, List.map_cons, toJsonAll_cons, ih]
    rfl

theorem toJsonBranches_eq (list : List (Option Node × Node)) :
    toJsonBranches list = toJsonAll (list.map fun entry ↦ branch entry.1 entry.2) := by
  induction list with
  | nil => rfl
  | cons entry list ih =>
    obtain ⟨_ | condition, body⟩ := entry
    · rw [toJsonBranches, List.map_cons, toJsonAll_cons, ih]
      rfl
    · rw [toJsonBranches, List.map_cons, toJsonAll_cons, ih]
      rfl

theorem mapEntries_toJsonEntries {k : Nat} {entries : List (Node × Node)}
    (h : ∀ entry ∈ entries, (mapEntry entry.1 entry.2).Reads k) :
    mapEntries (partAll (toJsonEntries entries)) = .ok entries := by
  rw [toJsonEntries_eq]
  induction entries with
  | nil => rfl
  | cons entry entries ih =>
    obtain ⟨hentry, hentries⟩ := List.forall_mem_cons.mp h
    rw [List.map_cons, toJsonAll_cons, partAll_cons, hentry.part, mapEntries, ih hentries]
    rfl

theorem branches_toJsonBranches {k : Nat} {list : List (Option Node × Node)}
    (h : ∀ entry ∈ list, (branch entry.1 entry.2).Reads k) :
    branches (partAll (toJsonBranches list)) = .ok list := by
  rw [toJsonBranches_eq]
  induction list with
  | nil => rfl
  | cons entry list ih =>
    obtain ⟨hentry, hlist⟩ := List.forall_mem_cons.mp h
    rw [List.map_cons, toJsonAll_cons, partAll_cons, hentry.part, branches, ih hlist]
    rfl

/-! ### Nodes -/

/-- What is made of a text, where the empty text counts as a missing one. -/
def ofText {α : Type} (missing : Except DecodeError α) (found : String → Except DecodeError α)
    (text : String) : Except DecodeError α :=
  match text with
  | "" => missing
  | text => found text

theorem ofText_of_ne {α : Type} {text : String} (h : text ≠ "") (missing : Except DecodeError α)
    (found : String → Except DecodeError α) : ofText missing found text = found text := by
  unfold ofText
  split
  · exact absurd rfl h
  · rfl

theorem reads_identifier {k : Nat} {name : String} (h : name ≠ "") :
    (identifier name).Reads (k + 1) := by
  refine reads_of_members rfl ?_ (List.forall_mem_singleton.mpr (fits_string k name))
  exact ofText_of_ne h (.error .identifierWithoutName) fun name ↦ .ok (identifier name)

theorem numberText_of_ne {parts : Parts} {text : String} (hget : parts.get "value" = .string text)
    (h : text ≠ "") : parts.numberText = .ok text := by
  rw [numberText, hget]
  split
  · rename_i heq
    cases heq
  · rename_i heq
    cases heq
    exact absurd rfl h
  · rename_i heq
    cases heq
    rfl
  · rename_i hother
    exact absurd rfl (hother text)

theorem reads_number {k : Nat} {text : String} (h : text ≠ "") : (number text).Reads (k + 1) := by
  refine reads_of_members rfl ?_ (List.forall_mem_singleton.mpr (fits_string k text))
  show (do return number (← numberText (partMembers _))) = _
  rw [numberText_of_ne rfl h]
  rfl

theorem reads_string (k : Nat) (value : String) : (string value).Reads (k + 1) :=
  reads_of_members rfl rfl (List.forall_mem_singleton.mpr (fits_string k value))

theorem reads_boolean (k : Nat) (value : Bool) : (boolean value).Reads (k + 1) :=
  reads_of_members rfl rfl (List.forall_mem_singleton.mpr (fits_bool k value))

theorem reads_regex (k : Nat) (pattern flags : String) : (regex pattern flags).Reads (k + 1) := by
  refine reads_of_members rfl ?_
    (List.forall_mem_cons.mpr ⟨fits_string k pattern, fits_textMember k "flags" flags⟩)
  unfold textMember
  split
  · rename_i hempty
    rw [hempty]
    rfl
  · rfl

/-- Assumes: a kind of node without members. -/
theorem reads_bare (k : Nat) {node : Node} {kind : String} (hjson : node.toJson = kindJson kind [])
    (hback : assemble [("type", .string kind)] = .ok node) : node.Reads (k + 1) :=
  reads_of_members hjson hback nofun

/-- Assumes: a kind of node that is a list of nodes. -/
theorem reads_list {k : Nat} {list : List Node} {make : List Node → Node} {kind field : String}
    (hjson : (make list).toJson = kindJson kind [(field, .array (toJsonAll list))])
    (hback : assemble [("type", .string kind), (field, .array (partAll (toJsonAll list)))] =
      do return make (← nodes .badNode (partAll (toJsonAll list))))
    (h : ∀ node ∈ list, node.Reads k) : (make list).Reads (k + 2) := by
  refine reads_of_members hjson ?_ (List.forall_mem_singleton.mpr (fits_toJsonAll h))
  refine Eq.trans hback ?_
  rw [nodes_toJsonAll h]
  rfl

theorem reads_access {k : Nat} {steps : List Node} (hsteps : steps ≠ [])
    (h : ∀ step ∈ steps, step.Reads k) : (access steps).Reads (k + 2) := by
  refine reads_of_members rfl ?_ (List.forall_mem_singleton.mpr (fits_toJsonAll h))
  show nodes .badNode (partAll (toJsonAll steps)) >>= _ = _
  rw [nodes_toJsonAll h]
  cases steps with
  | nil => exact absurd rfl hsteps
  | cons step steps => rfl

/-- Assumes: a kind of node that applies a node to a list of nodes. -/
theorem reads_application {k : Nat} {callee : Node} {args : List Node}
    {make : Node → List Node → Node} {kind : String}
    (hjson : (make callee args).toJson =
      kindJson kind [("callee", toJson callee), ("args", .array (toJsonAll args))])
    (hback : assemble [("type", .string kind), ("callee", .node (.ok callee)),
        ("args", .array (partAll (toJsonAll args)))] =
      do return make callee (← nodes .badNode (partAll (toJsonAll args))))
    (hcallee : callee.Reads (k + 1)) (hargs : ∀ arg ∈ args, arg.Reads k) :
    (make callee args).Reads (k + 2) := by
  refine reads_of_members hjson ?_ (List.forall_mem_cons.mpr
    ⟨hcallee.fits, List.forall_mem_singleton.mpr (fits_toJsonAll hargs)⟩)
  rw [partMembers_cons, partMembers_cons, hcallee.part]
  refine Eq.trans hback ?_
  rw [nodes_toJsonAll hargs]
  rfl

theorem reads_operation {k : Nat} {operator : String} {f : Fixity} {operands : List Node}
    (hf : ∀ name, f ≠ .other name) (h : ∀ operand ∈ operands, operand.Reads k) :
    (operation operator f operands).Reads (k + 2) := by
  refine reads_of_members rfl ?_ (List.forall_mem_cons.mpr ⟨fits_string _ operator,
    List.forall_mem_cons.mpr ⟨fits_string _ f.name,
      List.forall_mem_singleton.mpr (fits_toJsonAll h)⟩⟩)
  cases f with
  | other name => exact absurd rfl (hf name)
  | infixOp =>
    show (do
      return operation operator .infixOp (← nodes .badNode (partAll (toJsonAll operands)))) = _
    rw [nodes_toJsonAll h]
    rfl
  | prefixOp =>
    show (do
      return operation operator .prefixOp (← nodes .badNode (partAll (toJsonAll operands)))) = _
    rw [nodes_toJsonAll h]
    rfl
  | postfixOp =>
    show (do
      return operation operator .postfixOp (← nodes .badNode (partAll (toJsonAll operands)))) = _
    rw [nodes_toJsonAll h]
    rfl

theorem reads_operatorFunction {k : Nat} {operator : String} {f : Fixity}
    (hf : ∀ name, f ≠ .other name) : (operatorFunction operator f).Reads (k + 1) := by
  refine reads_of_members rfl ?_ (List.forall_mem_cons.mpr ⟨fits_string k operator,
    List.forall_mem_singleton.mpr (fits_string k f.name)⟩)
  cases f with
  | other name => exact absurd rfl (hf name)
  | _ => rfl

theorem reads_assignment {k : Nat} {operator : String} {target value : Node} (h : operator ≠ "")
    (htarget : target.Reads k) (hvalue : value.Reads k) :
    (assignment operator target value).Reads (k + 1) := by
  refine reads_of_members rfl ?_ (List.forall_mem_cons.mpr ⟨fits_string k operator,
    List.forall_mem_cons.mpr ⟨htarget.fits, List.forall_mem_singleton.mpr hvalue.fits⟩⟩)
  simp only [partMembers_cons, partMembers_nil, htarget.part, hvalue.part]
  exact ofText_of_ne h (.ok (assignment "=" target value)) fun operator ↦
    .ok (assignment operator target value)

/-- Assumes: a kind of node with one child. -/
theorem reads_single {k : Nat} {child : Node} {make : Node → Node} {kind field : String}
    (hjson : (make child).toJson = kindJson kind [(field, toJson child)])
    (hback : assemble [("type", .string kind), (field, .node (.ok child))] = .ok (make child))
    (h : child.Reads k) : (make child).Reads (k + 1) := by
  refine reads_of_members hjson ?_ (List.forall_mem_singleton.mpr h.fits)
  rw [partMembers_cons, partMembers_cons, h.part]
  exact hback

/-- Assumes: a kind of node with two children. -/
theorem reads_pair {k : Nat} {first second : Node} {make : Node → Node → Node}
    {kind field field' : String}
    (hjson : (make first second).toJson =
      kindJson kind [(field, toJson first), (field', toJson second)])
    (hback : assemble [("type", .string kind), (field, .node (.ok first)),
      (field', .node (.ok second))] = .ok (make first second))
    (hfirst : first.Reads k) (hsecond : second.Reads k) : (make first second).Reads (k + 1) := by
  refine reads_of_members hjson ?_
    (List.forall_mem_cons.mpr ⟨hfirst.fits, List.forall_mem_singleton.mpr hsecond.fits⟩)
  rw [partMembers_cons, partMembers_cons, partMembers_cons, hfirst.part, hsecond.part]
  exact hback

theorem reads_mapLiteral {k : Nat} {entries : List (Node × Node)}
    (h : ∀ entry ∈ entries, (mapEntry entry.1 entry.2).Reads k) :
    (mapLiteral entries).Reads (k + 2) := by
  have hfits : (Json.array (toJsonEntries entries)).Fits (k + 1) := by
    rw [toJsonEntries_eq]
    exact fits_toJsonAll (List.forall_mem_map.mpr h)
  refine reads_of_members rfl ?_ (List.forall_mem_singleton.mpr hfits)
  show (do return mapLiteral (← mapEntries (partAll (toJsonEntries entries)))) = _
  rw [mapEntries_toJsonEntries h]
  rfl

theorem reads_conditional {k : Nat} {list : List (Option Node × Node)}
    (h : ∀ entry ∈ list, (branch entry.1 entry.2).Reads k) : (conditional list).Reads (k + 2) := by
  have hfits : (Json.array (toJsonBranches list)).Fits (k + 1) := by
    rw [toJsonBranches_eq]
    exact fits_toJsonAll (List.forall_mem_map.mpr h)
  refine reads_of_members rfl ?_ (List.forall_mem_singleton.mpr hfits)
  show (do return conditional (← branches (partAll (toJsonBranches list)))) = _
  rw [branches_toJsonBranches h]
  rfl

theorem reads_branch {k : Nat} {condition : Option Node} {body : Node}
    (hcondition : ∀ node, condition = some node → node.Reads k) (hbody : body.Reads k) :
    (branch condition body).Reads (k + 1) := by
  cases condition with
  | none => exact @reads_single k body (branch none) _ _ rfl rfl hbody
  | some condition =>
    exact @reads_pair k condition body (fun first ↦ branch (some first)) _ _ _ rfl rfl
      (hcondition _ rfl) hbody

theorem reads_return {k : Nat} {argument : Option Node}
    (h : ∀ node, argument = some node → node.Reads k) :
    (returnStatement argument).Reads (k + 1) := by
  cases argument with
  | none => exact reads_bare k rfl rfl
  | some argument =>
    exact @reads_single k argument (fun node ↦ returnStatement (some node)) _ _ rfl rfl (h _ rfl)

theorem reads_declaration {k : Nat} {name : String} {params : List String} {body : Option Node}
    {native : Bool} (hnative : body = none → native = true)
    (h : ∀ node, body = some node → node.Reads (k + 1)) :
    (declaration name params body native).Reads (k + 2) := by
  have hparams := strings_stringsJson params
  cases body with
  | none =>
    obtain rfl := hnative rfl
    refine reads_of_members rfl ?_ (List.forall_mem_cons.mpr ⟨fits_string _ name,
      List.forall_mem_cons.mpr ⟨fits_stringsJson k params, fits_flagMember _ _ true⟩⟩)
    show Except.ok (declaration name (part (stringsJson params)).strings none true) = _
    rw [hparams]
  | some body =>
    have hbody := h body rfl
    refine reads_of_members rfl ?_ (List.forall_mem_cons.mpr ⟨fits_string _ name,
      List.forall_mem_cons.mpr ⟨fits_stringsJson k params,
        List.forall_mem_cons.mpr ⟨hbody.fits, fits_flagMember _ _ native⟩⟩⟩)
    simp only [partMembers_cons, hbody.part]
    cases native with
    | true =>
      show Except.ok (declaration name (part (stringsJson params)).strings (some body) true) = _
      rw [hparams]
    | false =>
      show Except.ok (declaration name (part (stringsJson params)).strings (some body) false) = _
      rw [hparams]

theorem reads_function {k : Nat} {params : List String} {body : Node} (hbody : body.Reads (k + 1)) :
    (function params body).Reads (k + 2) := by
  refine reads_of_members rfl ?_ (List.forall_mem_cons.mpr ⟨fits_stringsJson k params,
    List.forall_mem_singleton.mpr hbody.fits⟩)
  simp only [partMembers_cons, partMembers_nil, hbody.part]
  show Except.ok (function (part (stringsJson params)).strings body) = _
  rw [strings_stringsJson]

theorem reads_forLoop {k : Nat} {names : List String} {iterable body : Node}
    (hiterable : iterable.Reads (k + 1)) (hbody : body.Reads (k + 1)) :
    (forLoop names iterable body).Reads (k + 2) := by
  refine reads_of_members rfl ?_ (List.forall_mem_cons.mpr ⟨fits_stringsJson k names,
    List.forall_mem_cons.mpr ⟨hiterable.fits, List.forall_mem_singleton.mpr hbody.fits⟩⟩)
  simp only [partMembers_cons, partMembers_nil, hiterable.part, hbody.part]
  show Except.ok (forLoop (part (stringsJson names)).strings iterable body) = _
  rw [strings_stringsJson]

theorem reads_import {k : Nat} {name asName : String} {inline : Bool} (h : name ≠ "") :
    (importStatement name asName inline).Reads (k + 1) := by
  refine reads_of_members rfl (Eq.trans ?_ (ofText_of_ne h (.error .importWithoutName)
    fun name ↦ .ok (importStatement name asName inline))) (List.forall_mem_cons.mpr
      ⟨fits_string k name, List.forall_mem_append.mpr
        ⟨fits_textMember k "alias" asName, fits_flagMember k "inline" inline⟩⟩)
  unfold textMember
  split
  · rename_i hempty
    rw [hempty]
    cases inline <;> rfl
  · cases inline <;> rfl

theorem reads_export {k : Nat} {symbols : List String} {module : String} (h : module ≠ "") :
    (exportStatement symbols module).Reads (k + 2) := by
  refine reads_of_members rfl (Eq.trans ?_ (ofText_of_ne h (.error .exportWithoutName)
    fun module ↦ .ok (exportStatement symbols module))) (List.forall_mem_cons.mpr
      ⟨fits_stringsJson k symbols, List.forall_mem_singleton.mpr (fits_string _ module)⟩)
  show ofText (.error .exportWithoutName)
    (fun module ↦ .ok (exportStatement (part (stringsJson symbols)).strings module)) module = _
  rw [strings_stringsJson]

end Node

end TreeScript
