import OscAddressing.Proofs.Space.Run
import OscAddressing.Space.Lookup

/-!
# Lookups by pattern filter the list of methods

A pattern is resolved level by level, and a component that is one literal is looked up by name. In
the space after any run this is the same as going through all methods and keeping those whose path
the pattern covers, name by name: `matched_after`. Order and multiplicity agree as well.

Two facts carry it. A level can be expanded node by node (`expand_eq_flatMap`), although nothing is
expanded any more once a level is empty; so the induction is on the components, over single nodes.
And the literal shortcut finds what a search through the children would (`matching_eq_filter`),
because no two of them share a name. The induction hypothesis speaks of the methods among all rows
of a node, its own one included: with no components left, that is the one that is wanted.
-/

namespace OscAddressing

/-- Of a list in which no two elements have the same key, the first with a given key is the only
one. -/
theorem toList_find?_of_nodup {α β : Type*} [DecidableEq β] {key : α → β} {items : List α}
    (h : (items.map key).Nodup) (b : β) :
    (items.find? fun item ↦ key item = b).toList = items.filter fun item ↦ key item = b := by
  induction items with
  | nil => rfl
  | cons item rest ih =>
    rw [List.map_cons, List.nodup_cons] at h
    rw [List.find?_cons, List.filter_cons]
    by_cases hkey : key item = b
    · have hrest : (rest.filter fun item ↦ key item = b) = [] := by
        rw [List.filter_eq_nil_iff]
        intro other hother
        rw [decide_eq_true_iff]
        exact fun heq ↦ h.1 (List.mem_map.2 ⟨other, hother, heq.trans hkey.symm⟩)
      simp only [decide_eq_true hkey, if_true, hrest, Option.toList_some]
    · simp only [decide_eq_false hkey, Bool.false_eq_true, if_false, ih h.2]

namespace AddressPattern

/-- Has a path as many names as there are components, each accepted by the component in its place?
-/
def covers (components : List Component) (path : Path) : Bool :=
  path.length = components.length &&
    (components.zip path).all fun (component, name) ↦ component.accepts name

theorem covers_nil (path : Path) : covers [] path = path.isEmpty := by
  cases path <;> simp [covers]

theorem covers_cons_nil (component : Component) (rest : List Component) :
    covers (component :: rest) [] = false := by
  simp [covers]

theorem covers_cons_cons (component : Component) (rest : List Component) (name : Text)
    (path : Path) :
    covers (component :: rest) (name :: path) = (component.accepts name && covers rest path) := by
  simp [covers, Bool.and_left_comm]

end AddressPattern

namespace Node

variable {κ : Type u} {strict : Bool}

/-- **The literal shortcut is right**, since no two children share a name. -/
theorem matching_eq_filter {node : Node κ} (h : node.Orderly strict) (component : Component) :
    node.matching component = node.children.filter fun child ↦ component.accepts child.name := by
  rw [matching]
  cases hliteral : component.literal? with
  | none => rfl
  | some text =>
    have htokens := Component.literal?_eq_some_iff.1 hliteral
    have haccepts : (fun child : Node κ ↦ component.accepts child.name) =
        fun child ↦ decide (child.name = text) := by
      funext child
      rw [Component.accepts, htokens, matchesWhole]
      exact decide_eq_decide.2 eq_comm
    rw [haccepts]
    show (node.children.find? fun child ↦ child.name = text).toList = _
    exact toList_find?_of_nodup h.distinct text

end Node

namespace Space

variable {κ : Type u} {strict : Bool}

/-! ### Levels -/

theorem expand_nil (components : List Component) : expand ([] : List (Node κ)) components = [] := by
  cases components <;> rfl

/-- **Breaking off early makes no difference.** -/
theorem expand_cons (frontier : List (Node κ)) (component : Component) (rest : List Component) :
    expand frontier (component :: rest) =
      expand (frontier.flatMap (Node.matching component)) rest := by
  rw [expand]
  split
  case isTrue hempty => rw [List.isEmpty_iff.1 hempty, expand_nil]
  case isFalse => rfl

/-- **A level can be expanded node by node.** -/
theorem expand_eq_flatMap (frontier : List (Node κ)) (components : List Component) :
    expand frontier components = frontier.flatMap fun node ↦ expand [node] components := by
  induction components generalizing frontier with
  | nil => simp [expand]
  | cons component rest ih =>
    have hnode : ∀ node : Node κ, expand [node] (component :: rest) =
        (node.matching component).flatMap fun child ↦ expand [child] rest := by
      intro node
      rw [expand_cons, List.flatMap_singleton, ih]
    rw [expand_cons, ih, List.flatMap_assoc]
    exact List.flatMap_congr fun node _ ↦ (hnode node).symm

/-- Going on only from the nodes that pass a test is going nowhere from the others. -/
theorem flatMap_filter {α : Type*} (nodes : List (Node κ)) (test : Node κ → Bool)
    (next : Node κ → List α) :
    (nodes.filter test).flatMap next =
      nodes.flatMap fun node ↦ if test node then next node else [] := by
  induction nodes with
  | nil => rfl
  | cons node rest ih =>
    rw [List.filter_cons, List.flatMap_cons, ← ih]
    split <;> rfl

/-- A method is below the node where the walk began, so without components none is covered. -/
theorem filter_covers_nil (node : Node κ) :
    (node.methods.filter fun entry ↦ AddressPattern.covers [] entry.1) = [] := by
  rw [List.filter_eq_nil_iff]
  intro entry hentry
  rw [AddressPattern.covers_nil, List.isEmpty_iff]
  exact Node.path_ne_nil_of_mem_methods hentry

/-- In the branch of a child the first component is for its name, and the rest for what is below. -/
theorem filter_covers_branch (child : Node κ) (component : Component) (rest : List Component) :
    ((Row.entries child.branch).filter fun entry ↦
      AddressPattern.covers (component :: rest) entry.1).map Prod.snd =
    if component.accepts child.name then
      ((Row.entries child.rows).filter fun entry ↦
        AddressPattern.covers rest entry.1).map Prod.snd
    else [] := by
  rw [Node.branch, Row.entries_map_below, List.filter_map, List.map_map]
  cases haccepts : component.accepts child.name with
  | true =>
    rw [if_pos rfl]
    simp [Function.comp_def, AddressPattern.covers_cons_cons, haccepts]
  | false =>
    rw [if_neg Bool.false_ne_true]
    simp [Function.comp_def, AddressPattern.covers_cons_cons, haccepts]

/-- **What is reached from a node**, of the methods among its rows, is those at the paths that are
covered. -/
theorem filterMap_expand {node : Node κ} (h : node.Throughout (Node.Orderly strict))
    (components : List Component) :
    (expand [node] components).filterMap Node.method? =
      ((Row.entries node.rows).filter fun entry ↦
        AddressPattern.covers components entry.1).map Prod.snd := by
  induction components generalizing node with
  | nil =>
    have hbelow := filter_covers_nil node
    rw [Node.entries_rows, List.filter_append, hbelow, List.append_nil, expand]
    cases hmethod : node.method? <;> simp [hmethod, AddressPattern.covers_nil]
  | cons component rest ih =>
    obtain ⟨horderly, hchildren⟩ := Node.throughout_iff.1 h
    -- The own method of the node is at the empty path, which is too short.
    have hown : ((node.method?.map fun method ↦ (([] : Path), method)).toList.filter fun entry ↦
        AddressPattern.covers (component :: rest) entry.1) = [] := by
      cases node.method? <;> simp [AddressPattern.covers_cons_nil]
    calc (expand [node] (component :: rest)).filterMap Node.method?
        = (node.children.filter fun child ↦ component.accepts child.name).flatMap fun child ↦
            (expand [child] rest).filterMap Node.method? := by
          rw [expand_cons, List.flatMap_singleton, Node.matching_eq_filter horderly,
            expand_eq_flatMap, List.filterMap_flatMap]
      _ = node.children.flatMap fun child ↦
            if component.accepts child.name then (expand [child] rest).filterMap Node.method?
            else [] :=
          flatMap_filter ..
      _ = node.children.flatMap fun child ↦ ((Row.entries child.branch).filter fun entry ↦
            AddressPattern.covers (component :: rest) entry.1).map Prod.snd := by
          refine List.flatMap_congr fun child hchild ↦ ?_
          rw [filter_covers_branch, ih (hchildren child hchild)]
      _ = ((Row.entries node.rows).filter fun entry ↦
            AddressPattern.covers (component :: rest) entry.1).map Prod.snd := by
          rw [Node.entries_rows, List.filter_append, hown, List.nil_append,
            Node.methods_eq_entries, Row.entries, List.filterMap_flatMap, List.filter_flatMap,
            List.map_flatMap]
          rfl

/-! ### Lookups -/

theorem matched_eq_map (space : Space κ) (pattern : AddressPattern) :
    space.matched pattern = ((space.resolve pattern).filterMap Node.method?).map Method.id := by
  rw [List.map_filterMap]
  rfl

/-- The lookup by pattern goes to the methods that a message goes to. -/
theorem lookupD_eq_targets (space : Space κ) (t : Text) :
    space.lookupD t = (space.targets t).map Method.id := by
  rw [lookupD, lookup, targets]
  cases space.readPattern t with
  | ok pattern => exact matched_eq_map space pattern
  | error e => rfl

/-- The identities of the methods at the paths that a pattern covers, in the order of the tree. -/
def covered (space : Space κ) (pattern : AddressPattern) : List MethodId :=
  (space.root.methods.filter fun entry ↦
    AddressPattern.covers pattern.components entry.1).map fun entry ↦ entry.2.id

/-- **The methods that a pattern leads to** are those at the paths that it covers. -/
theorem filterMap_resolve {space : Space κ} (h : space.Sound) (pattern : AddressPattern) :
    (space.resolve pattern).filterMap Node.method? =
      (space.root.methods.filter fun entry ↦
        AddressPattern.covers pattern.components entry.1).map Prod.snd := by
  have hexpand := filterMap_expand h.orderly pattern.components
  rw [← Node.methods_eq_entries_rows h.method?] at hexpand
  rw [resolve]
  split
  case isFalse => exact hexpand
  case isTrue hempty =>
    rw [List.isEmpty_iff.1 hempty, filter_covers_nil]
    rfl

/-- **The methods that a message goes to** are registered at paths that its pattern covers. -/
theorem Sound.mem_targets_iff {space : Space κ} (h : space.Sound) {t : Text} {method : Method κ} :
    method ∈ space.targets t ↔ ∃ pattern, space.readPattern t = .ok pattern ∧
      ∃ path, (path, method) ∈ space.root.methods ∧
        AddressPattern.covers pattern.components path = true := by
  rw [targets]
  cases space.readPattern t with
  | error e => simp
  | ok pattern => simp [filterMap_resolve h]

theorem matched_eq_covered {space : Space κ} (h : space.Sound) (pattern : AddressPattern) :
    space.matched pattern = space.covered pattern := by
  rw [matched_eq_map, filterMap_resolve h, List.map_map]
  rfl

/-- **Lookups by pattern in the space after any run.** The identities of the methods that a pattern
matches are those of the methods at the paths that it covers, in the order of the tree, which is
that of the addresses; none is repeated, and a pattern without components matches none. A text is
looked up as the pattern that it is read as with the options of the configuration; one that cannot
be read reports its error, or matches none. -/
theorem matched_after (config : Config) (run : List (Operation κ)) :
    (after config run).addresses =
        (after config run).root.methods.map (fun entry ↦ Path.toText entry.1) ∧
      (∀ pattern, (after config run).matched pattern = (after config run).covered pattern) ∧
      (∀ pattern, ((after config run).matched pattern).Nodup) ∧
      (∀ raw, (after config run).matched ⟨raw, []⟩ = []) ∧
      ∀ t, (after config run).lookup t =
          (AddressPattern.ofTextWith config.patternOptions t).map (after config run).covered ∧
        (after config run).lookupD t = ((AddressPattern.ofTextWith config.patternOptions t).map
          (after config run).covered).toOption.getD [] := by
  have hsound : (after config run).Sound := sound_after config run
  have hlookup : ∀ t, (after config run).lookup t =
      (AddressPattern.ofTextWith config.patternOptions t).map (after config run).covered := by
    intro t
    rw [lookup, readPattern, funext (matched_eq_covered hsound), config_after]
  refine ⟨?_, matched_eq_covered hsound, fun pattern ↦ ?_, fun raw ↦ rfl,
    fun t ↦ ⟨hlookup t, ?_⟩⟩
  · show ((after config run).root.addresses []).map Prod.fst = _
    rw [Node.addresses_eq, List.map_map]
    rfl
  · rw [matched_eq_covered hsound]
    exact (List.filter_sublist.map _).nodup hsound.nodup_methodIds
  · rw [lookupD, hlookup]
    cases AddressPattern.ofTextWith config.patternOptions t <;> rfl

-- The path of the second method is too short; the others come in the order of the tree.
example : (after {} [.register "/b/c".toList none, .register "/b".toList none,
    .register "/a/c".toList none] : Space Unit).lookupD "/*/c".toList =
      [.issued 0, .issued 2] := by
  decide +kernel

end Space

end OscAddressing
