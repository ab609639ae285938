import TreeScript.Proofs.Trees.Written

/-!
# What is read is read back

Reading a tree fills in what was left out: an empty list for a missing one, `=` for no operator, the
fixity that goes with the number of operands. Written out, the tree is therefore not the text it was
read from, but it is read back as the same tree.

The proof goes from the leaves up, as reading does. The trees in the parts of a value are read back
(`Part.Faithful`, `part_faithful`), since a tree that is assembled from the members of an object is
assembled from trees that are (`reads_assemble`). With what the reader makes of written values, this
gives the same for texts (`decoded_trees_are_read_back`).

There is one exception. The reader limits how deep arrays and objects nest, the writer does not,
and a list that was left out is written one level deeper than the object it belongs to. A text at
the limit can so be read as a tree whose own text is refused (`deepest_call_is_not_read_back`).
-/

set_option autoImplicit false

namespace TreeScript

namespace Node

open Parts

/-! ### Parts -/

/-- The part of a value that nests at most so deep: every tree in it is read back from what it is
written as, which nests at most one level deeper, for a list that was missing. -/
inductive Part.Faithful : Nat → Part → Prop
  | null {d : Nat} : Faithful d .null
  | bool {d : Nat} (b : Bool) : Faithful d (.bool b)
  | number {d : Nat} {text : String} (h : text ≠ "") : Faithful d (.number text)
  | string {d : Nat} (s : String) : Faithful d (.string s)
  | array {d : Nat} {items : List Part} (h : ∀ item ∈ items, Faithful d item) :
    Faithful (d + 1) (.array items)
  | error {d : Nat} (e : DecodeError) : Faithful d (.node (.error e))
  | node {d : Nat} {node : Node} (h : node.Reads (d + 1)) : Faithful d (.node (.ok node))

theorem Part.Faithful.reads {d : Nat} {node : Node} (h : Faithful d (.node (.ok node))) :
    node.Reads (d + 1) := by
  cases h with
  | node h => exact h

theorem Part.Faithful.items {d : Nat} {part : Part} (h : part.Faithful d) {node : Node}
    (hmem : .node (.ok node) ∈ part.items) : node.Reads d := by
  cases h with
  | array h => exact (h _ hmem).reads
  | _ => exact absurd hmem List.not_mem_nil

theorem of_bind_ok {α β : Type} {x : Except DecodeError α} {f : α → Except DecodeError β} {b : β}
    (h : x >>= f = .ok b) : ∃ a, x = .ok a ∧ f a = .ok b := by
  cases x with
  | error e => cases h
  | ok a => exact ⟨a, rfl, h⟩

theorem of_map_ok {α β : Type} {x : Except DecodeError α} {f : α → β} {b : β}
    (h : x.map f = .ok b) : ∃ a, x = .ok a ∧ f a = b := by
  cases x with
  | error e => cases h
  | ok a => exact ⟨a, rfl, Except.ok.inj h⟩

theorem mem_of_nodes {complain : String → DecodeError} {parts : List Part} {list : List Node}
    (h : nodes complain parts = .ok list) : ∀ node ∈ list, .node (.ok node) ∈ parts := by
  induction parts generalizing list with
  | nil =>
    cases h
    exact nofun
  | cons part parts ih =>
    cases part with
    | node result =>
      rw [nodes] at h
      obtain ⟨first, hresult, h⟩ := of_bind_ok h
      obtain ⟨rest, hrest, h⟩ := of_bind_ok h
      cases h
      cases hresult
      exact List.forall_mem_cons.mpr
        ⟨List.mem_cons_self .., fun node hmem ↦ List.mem_cons_of_mem _ (ih hrest node hmem)⟩
    | _ => cases h

theorem mem_of_mapEntries {parts : List Part} {entries : List (Node × Node)}
    (h : mapEntries parts = .ok entries) :
    ∀ entry ∈ entries, .node (.ok (mapEntry entry.1 entry.2)) ∈ parts := by
  induction parts generalizing entries with
  | nil =>
    cases h
    exact nofun
  | cons part parts ih =>
    cases part with
    | node result =>
      rw [mapEntries] at h
      obtain ⟨first, hresult, h⟩ := of_bind_ok h
      split at h
      · obtain ⟨rest, hrest, h⟩ := of_bind_ok h
        cases h
        cases hresult
        exact List.forall_mem_cons.mpr
          ⟨List.mem_cons_self .., fun node hmem ↦ List.mem_cons_of_mem _ (ih hrest node hmem)⟩
      · cases h
    | _ => cases h

theorem mem_of_branches {parts : List Part} {list : List (Option Node × Node)}
    (h : branches parts = .ok list) :
    ∀ entry ∈ list, .node (.ok (branch entry.1 entry.2)) ∈ parts := by
  induction parts generalizing list with
  | nil =>
    cases h
    exact nofun
  | cons part parts ih =>
    cases part with
    | node result =>
      rw [branches] at h
      obtain ⟨first, hresult, h⟩ := of_bind_ok h
      split at h
      · obtain ⟨rest, hrest, h⟩ := of_bind_ok h
        cases h
        cases hresult
        exact List.forall_mem_cons.mpr
          ⟨List.mem_cons_self .., fun node hmem ↦ List.mem_cons_of_mem _ (ih hrest node hmem)⟩
      · cases h
    | _ => cases h

/-! ### Members -/

section

variable {d : Nat} {parts : Parts} (hparts : ∀ entry ∈ parts, entry.2.Faithful d)

include hparts

theorem get_faithful (field : String) : (parts.get field).Faithful d := by
  unfold Parts.get
  refine List.foldlRecOn (motive := fun part : Part ↦ part.Faithful d) parts _ .null
    fun found hfound entry hmem ↦ ?_
  split
  · exact hparts entry hmem
  · exact hfound

theorem reads_of_nodeList {field : String} {list : List Node}
    (h : parts.nodeList field = .ok list) : ∀ node ∈ list, node.Reads d :=
  fun node hmem ↦ (get_faithful hparts field).items (mem_of_nodes h node hmem)

theorem reads_of_optionalChild {kind field : String} {child : Option Node}
    (h : parts.optionalChild kind field = .ok child) (node : Node) (hnode : child = some node) :
    node.Reads (d + 1) := by
  have hget := get_faithful hparts field
  unfold optionalChild at h
  split at h
  · cases h
    cases hnode
  · rename_i result heq
    rw [heq] at hget
    cases result with
    | error e => cases h
    | ok child =>
      cases h
      cases hnode
      exact hget.reads
  · cases h

theorem reads_of_child {kind field : String} {node : Node}
    (h : parts.child kind field = .ok node) : node.Reads (d + 1) := by
  obtain ⟨child, hchild, h⟩ := of_bind_ok h
  cases child with
  | none => cases h
  | some child =>
    cases h
    exact reads_of_optionalChild hparts hchild _ rfl

theorem ne_empty_of_numberText {text : String} (h : parts.numberText = .ok text) : text ≠ "" := by
  have hget := get_faithful hparts "value"
  unfold numberText at h
  split at h
  · rename_i heq
    rw [heq] at hget
    cases h
    cases hget with
    | number h => exact h
  · cases h
  · rename_i hempty heq
    cases h
    exact hempty
  · cases h

end

theorem ne_other_of_fixity {parts : Parts} {operands : Nat} {f : Fixity}
    (h : parts.fixity operands = .ok f) (name : String) : f ≠ .other name := by
  unfold fixity at h
  split at h
  · cases h
    split
    · exact nofun
    · exact nofun
  · cases h
    exact nofun
  · cases h
    exact nofun
  · cases h
    exact nofun
  · cases h

/-! ### Assembling -/

/-- Assumes: members from whose parts trees are read back. The tree assembled from them is read
back. -/
theorem reads_assemble {d : Nat} {parts : Parts} (hparts : ∀ entry ∈ parts, entry.2.Faithful d)
    {node : Node} (h : parts.assemble = .ok node) : node.Reads (d + 2) := by
  have hlist {field : String} {list : List Node} (h : parts.nodeList field = .ok list) :=
    reads_of_nodeList hparts h
  have hchild {kind field : String} {child : Node} (h : parts.child kind field = .ok child) :=
    reads_of_child hparts h
  -- a case for each kind, in the order in which they are told apart
  unfold assemble at h
  split at h
  · obtain ⟨body, hbody, h⟩ := of_bind_ok h
    cases h
    exact reads_list rfl rfl (hlist hbody)
  · obtain ⟨body, hbody, h⟩ := of_bind_ok h
    cases h
    exact reads_list rfl rfl (hlist hbody)
  · split at h
    · cases h
    · rename_i hname
      cases h
      exact reads_identifier hname
  · obtain ⟨text, htext, h⟩ := of_bind_ok h
    cases h
    exact reads_number (ne_empty_of_numberText hparts htext)
  · cases h
    exact reads_string ..
  · cases h
    exact reads_boolean ..
  · cases h
    exact reads_regex ..
  · cases h
    exact reads_bare _ rfl rfl
  · obtain ⟨steps, hsteps, h⟩ := of_bind_ok h
    split at h
    · cases h
    · rename_i hne
      cases h
      exact reads_access hne (hlist hsteps)
  · obtain ⟨key, hkey, h⟩ := of_bind_ok h
    cases h
    exact reads_single rfl rfl (hchild hkey)
  · obtain ⟨args, hargs, h⟩ := of_bind_ok h
    cases h
    exact reads_list rfl rfl (hlist hargs)
  · obtain ⟨callee, hcallee, h⟩ := of_bind_ok h
    obtain ⟨args, hargs, h⟩ := of_bind_ok h
    cases h
    exact reads_application rfl rfl (hchild hcallee) (hlist hargs)
  · obtain ⟨callee, hcallee, h⟩ := of_bind_ok h
    obtain ⟨args, hargs, h⟩ := of_bind_ok h
    cases h
    exact reads_application rfl rfl (hchild hcallee) (hlist hargs)
  · obtain ⟨operands, hoperands, h⟩ := of_bind_ok h
    obtain ⟨f, hf, h⟩ := of_bind_ok h
    cases h
    exact reads_operation (ne_other_of_fixity hf) (hlist hoperands)
  · obtain ⟨f, hf, h⟩ := of_bind_ok h
    cases h
    exact reads_operatorFunction (ne_other_of_fixity hf)
  · obtain ⟨target, htarget, h⟩ := of_bind_ok h
    obtain ⟨value, hvalue, h⟩ := of_bind_ok h
    split at h
    · cases h
      exact reads_assignment (by decide) (hchild htarget) (hchild hvalue)
    · rename_i hoperator
      cases h
      exact reads_assignment hoperator (hchild htarget) (hchild hvalue)
  · obtain ⟨elements, helements, h⟩ := of_bind_ok h
    cases h
    exact reads_list rfl rfl (hlist helements)
  · obtain ⟨elements, helements, h⟩ := of_bind_ok h
    cases h
    exact reads_list rfl rfl (hlist helements)
  · obtain ⟨entries, hentries, h⟩ := of_bind_ok h
    cases h
    exact reads_mapLiteral fun entry hmem ↦
      (get_faithful hparts _).items (mem_of_mapEntries hentries entry hmem)
  · obtain ⟨key, hkey, h⟩ := of_bind_ok h
    obtain ⟨value, hvalue, h⟩ := of_bind_ok h
    cases h
    exact reads_pair rfl rfl (hchild hkey) (hchild hvalue)
  · dsimp only at h
    split at h
    · rename_i hnative
      obtain ⟨body, hbody, h⟩ := of_bind_ok h
      cases h
      exact reads_declaration (fun _ ↦ hnative) (reads_of_optionalChild hparts hbody)
    · obtain ⟨body, hbody, h⟩ := of_bind_ok h
      cases h
      obtain ⟨child, hchild', hsome⟩ := of_map_ok hbody
      cases hsome
      exact reads_declaration nofun fun node hnode ↦ Option.some.inj hnode ▸ hchild hchild'
  · obtain ⟨body, hbody, h⟩ := of_bind_ok h
    cases h
    exact reads_function (hchild hbody)
  · obtain ⟨list, hbranches, h⟩ := of_bind_ok h
    cases h
    exact reads_conditional fun entry hmem ↦
      (get_faithful hparts _).items (mem_of_branches hbranches entry hmem)
  · obtain ⟨condition, hcondition, h⟩ := of_bind_ok h
    obtain ⟨body, hbody, h⟩ := of_bind_ok h
    cases h
    exact reads_branch (reads_of_optionalChild hparts hcondition) (hchild hbody)
  · obtain ⟨iterable, hiterable, h⟩ := of_bind_ok h
    obtain ⟨body, hbody, h⟩ := of_bind_ok h
    cases h
    exact reads_forLoop (hchild hiterable) (hchild hbody)
  · obtain ⟨condition, hcondition, h⟩ := of_bind_ok h
    obtain ⟨body, hbody, h⟩ := of_bind_ok h
    cases h
    exact reads_pair rfl rfl (hchild hcondition) (hchild hbody)
  · obtain ⟨argument, hargument, h⟩ := of_bind_ok h
    cases h
    exact reads_return (reads_of_optionalChild hparts hargument)
  · cases h
    exact reads_bare _ rfl rfl
  · cases h
    exact reads_bare _ rfl rfl
  · split at h
    · cases h
    · rename_i hname
      cases h
      exact reads_import hname
  · split at h
    · cases h
    · rename_i hmodule
      cases h
      exact reads_export hmodule
  · cases h

/-! ### Trees -/

theorem partAll_eq_map (items : List Json) : partAll items = items.map part := by
  induction items with
  | nil => rfl
  | cons item items ih => rw [partAll, ih, List.map_cons]

theorem partMembers_eq_map (members : List (String × Json)) :
    partMembers members = members.map fun member ↦ (member.1, part member.2) := by
  induction members with
  | nil => rfl
  | cons member members ih => rw [partMembers_cons, ih, List.map_cons]

/-- Assumes: a value whose numbers have texts. The trees in it are read back: at the leaves there
are none, and what an object stands for is assembled from its members. -/
theorem part_faithful {json : Json} (hnumbers : json.Numbers (· ≠ "")) {d : Nat}
    (hdepth : json.depth ≤ d) : (part json).Faithful d := by
  induction hnumbers generalizing d with
  | null =>
    rw [part]
    exact .null
  | bool b =>
    rw [part]
    exact .bool b
  | number h =>
    rw [part]
    exact .number h
  | string s =>
    rw [part]
    exact .string s
  | @array items _ ih =>
    obtain ⟨d, rfl⟩ := Nat.exists_eq_add_one.mpr (Nat.zero_lt_of_lt hdepth)
    rw [part, partAll_eq_map]
    refine .array (List.forall_mem_map.mpr fun item hmem ↦ ih item hmem ?_)
    exact Nat.le_trans (Json.depth_le_depthAll hmem) (Nat.le_of_succ_le_succ hdepth)
  | @object members _ ih =>
    obtain ⟨d, rfl⟩ := Nat.exists_eq_add_one.mpr (Nat.zero_lt_of_lt hdepth)
    rw [part, partMembers_eq_map]
    have hparts : ∀ entry ∈ members.map fun member ↦ (member.1, part member.2),
        entry.2.Faithful d := by
      refine List.forall_mem_map.mpr fun member hmem ↦ ih member hmem ?_
      exact Nat.le_trans (Json.depth_le_depthMembers hmem) (Nat.le_of_succ_le_succ hdepth)
    cases hnode : assemble (members.map fun member ↦ (member.1, part member.2)) with
    | error e => exact .error e
    | ok node => exact .node (reads_assemble hparts hnode)

/-- A tree that is read from a value is read back, and what it is written as nests at most one level
deeper. -/
theorem reads_of_ofJson {json : Json} (hnumbers : json.Numbers (· ≠ "")) {node : Node}
    (h : ofJson json = .ok node) : node.Reads (json.depth + 1) := by
  cases json with
  | object members =>
    have hpart := part_faithful hnumbers (Nat.le_refl _)
    rw [part, show assemble (partMembers members) = .ok node from h] at hpart
    exact hpart.reads
  | _ => cases h

/-! ### Texts -/

/-- The text of a tree. -/
def encode (node : Node) : String := node.toJson.compact

/-- Reads a program from text: a root, or the tree as the only statement of one. -/
def parseRoot (text : String) : Except DecodeError Node :=
  (parse text).map fun node ↦ root node.statements

/-- Assumes: a tree that is read back. Its text is read as the tree unless it nests too deep. -/
theorem parse_encode_of_reads {k : Nat} {node : Node} (h : node.Reads k) :
    parse (encode node) =
      if node.toJson.depth ≤ Json.Reader.maxDepth then .ok node else .error .notJson := by
  rw [parse, encode, Json.parsePrefix?_compact h.fits.plain]
  by_cases hdepth : node.toJson.depth ≤ Json.Reader.maxDepth
  · rw [if_pos hdepth, if_pos hdepth]
    exact h.back
  · rw [if_neg hdepth, if_neg hdepth]

theorem reads_of_parse {text : String} {node : Node} (h : parse text = .ok node) :
    ∃ json, Json.parsePrefix? text = some json ∧ node.Reads (json.depth + 1) := by
  unfold parse at h
  split at h
  · rename_i json hjson
    exact ⟨json, hjson, reads_of_ofJson (Json.numbers_of_parsePrefix? hjson) h⟩
  · cases h

/-- Assumes: a tree that is read back. So is the program it stands for. -/
theorem reads_root_statements {k : Nat} {node : Node} (h : node.Reads k) :
    (root node.statements).Reads (k + 2) := by
  cases node with
  | root body => exact ⟨h.back, h.fits.plain, Nat.le_trans h.fits.shallow (Nat.le_add_right k 2)⟩
  | _ => exact reads_list rfl rfl (List.forall_mem_singleton.mpr h)

/-- What comes back of a tree that was read from a text, once it is written and read again: the
tree, unless it nests too deep. It nests but little deeper than the text. -/
structure ReadBack (decode : String → Except DecodeError Node) (deeper : Nat) (text : String)
    (node : Node) : Prop where
  within : node.toJson.depth ≤ Json.Reader.maxDepth → decode (encode node) = .ok node
  beyond : Json.Reader.maxDepth < node.toJson.depth → decode (encode node) = .error .notJson
  deepens : ∀ json, Json.parsePrefix? text = some json → node.toJson.depth ≤ json.depth + deeper
  stable : ∀ again, decode (encode node) = .ok again → encode again = encode node

/-- Assumes: a tree that is read back, as deep as it may be. -/
theorem ReadBack.of_reads {decode : String → Except DecodeError Node} {deeper : Nat} {text : String}
    {json : Json} {node : Node} (hjson : Json.parsePrefix? text = some json)
    (h : node.Reads (json.depth + deeper)) (hdecode : decode (encode node) = parse (encode node)) :
    ReadBack decode deeper text node := by
  have hread := hdecode.trans (parse_encode_of_reads h)
  refine ⟨?_, ?_, ?_, ?_⟩
  · intro hdepth
    rw [hread, if_pos hdepth]
  · intro hdepth
    rw [hread, if_neg (Nat.not_le_of_lt hdepth)]
  · intro other hother
    rw [hjson] at hother
    cases hother
    exact h.fits.shallow
  · intro again hagain
    rw [hread] at hagain
    split at hagain
    · cases hagain
      rfl
    · cases hagain

/-- Every tree that is read is read back from its text, unless arrays and objects nest deeper there
than they may, and so is every program. -/
theorem decoded_trees_are_read_back (text : String) :
    (∀ node, parse text = .ok node → ReadBack parse 1 text node) ∧
      ∀ program, parseRoot text = .ok program → ReadBack parseRoot 3 text program := by
  constructor
  · intro node h
    obtain ⟨json, hjson, hreads⟩ := reads_of_parse h
    exact .of_reads hjson hreads rfl
  · intro program h
    obtain ⟨node, hnode, rfl⟩ := of_map_ok h
    obtain ⟨json, hjson, hreads⟩ := reads_of_parse hnode
    have hprogram := reads_root_statements hreads
    refine .of_reads hjson hprogram ?_
    rw [parseRoot, parse_encode_of_reads hprogram]
    split
    · rfl
    · rfl

/-- Assumes: a value without numbers, which nests no deeper than it may. What it stands for is read
from its text. -/
theorem parse_compact {json : Json} (hplain : json.Plain)
    (hdepth : json.depth ≤ Json.Reader.maxDepth) : parse json.compact = ofJson json := by
  rw [parse, Json.parsePrefix?_compact hplain, if_pos hdepth]

/-- A call without a list of arguments is read as one with an empty list, and so it is written. -/
theorem call_without_args_is_read_back :
    parse (kindJson "Call" []).compact = .ok (call []) ∧
      parse (encode (call [])) = .ok (call []) ∧
      parseRoot (encode (root [call []])) = .ok (root [call []]) := by
  have hplain : (kindJson "Call" []).Plain :=
    .object (List.forall_mem_singleton.mpr (.string "Call"))
  have hdepth : (kindJson "Call" []).depth ≤ Json.Reader.maxDepth := by decide
  have hparse : parse (kindJson "Call" []).compact = .ok (call []) := parse_compact hplain hdepth
  have hprogram : parseRoot (kindJson "Call" []).compact = .ok (root [call []]) := by
    rw [parseRoot, hparse]
    rfl
  have hcall : (call []).toJson.depth ≤ Json.Reader.maxDepth := by decide
  have hroot : (root [call []]).toJson.depth ≤ Json.Reader.maxDepth := by decide
  have hback := decoded_trees_are_read_back (kindJson "Call" []).compact
  exact ⟨hparse, (hback.1 _ hparse).within hcall, (hback.2 _ hprogram).within hroot⟩

/-! ### Trees that nest too deep -/

/-- A call without a list of arguments, so many indices deep. -/
def deepJson : Nat → Json
  | 0 => kindJson "Call" []
  | n + 1 => kindJson "Index" [("key", deepJson n)]

/-- The tree that is read from it. -/
def deepTree : Nat → Node
  | 0 => call []
  | n + 1 => index (deepTree n)

theorem plain_deepJson (n : Nat) : (deepJson n).Plain := by
  induction n with
  | zero => exact .object (List.forall_mem_singleton.mpr (.string "Call"))
  | succ n ih =>
    exact .object (List.forall_mem_cons.mpr ⟨.string "Index", List.forall_mem_singleton.mpr ih⟩)

theorem depth_deepJson (n : Nat) : (deepJson n).depth = n + 1 := by
  induction n with
  | zero => rfl
  | succ n ih =>
    show max 0 (max (deepJson n).depth 0) + 1 = n + 1 + 1
    rw [ih, Nat.max_zero, Nat.zero_max]

theorem ofJson_deepJson (n : Nat) : ofJson (deepJson n) = .ok (deepTree n) := by
  have hpart (n : Nat) : part (deepJson n) = .node (ofJson (deepJson n)) := by
    cases n with
    | zero => rfl
    | succ n => rfl
  induction n with
  | zero => rfl
  | succ n ih =>
    rw [deepJson, kindJson, ofJson, partMembers_cons, partMembers_cons, hpart, ih]
    rfl

theorem reads_deepTree (n : Nat) : (deepTree n).Reads (n + 2) := by
  induction n with
  | zero => exact reads_list rfl rfl nofun
  | succ n ih => exact reads_single rfl rfl ih

theorem depth_deepTree (n : Nat) : (deepTree n).toJson.depth = n + 2 := by
  induction n with
  | zero => rfl
  | succ n ih =>
    show max 0 (max (deepTree n).toJson.depth 0) + 1 = n + 1 + 2
    rw [ih, Nat.max_zero, Nat.zero_max]

/-- A call without a list of arguments, as deep as it may be, is read. It is written with the list,
which is then too deep. -/
theorem deepest_call_is_not_read_back :
    parse (deepJson 9999).compact = .ok (deepTree 9999) ∧
      parse (encode (deepTree 9999)) = .error .notJson := by
  have hdepth : (deepJson 9999).depth ≤ Json.Reader.maxDepth := by
    rw [depth_deepJson]
    exact Nat.le_refl 10000
  have htree : ¬ (deepTree 9999).toJson.depth ≤ Json.Reader.maxDepth := by
    rw [depth_deepTree]
    exact Nat.not_succ_le_self 10000
  constructor
  · rw [parse_compact (plain_deepJson 9999) hdepth, ofJson_deepJson]
  · rw [parse_encode_of_reads (reads_deepTree 9999), if_neg htree]

end Node

end TreeScript
