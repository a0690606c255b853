import OscAddressing.Dispatch.Call
import OscAddressing.Proofs.Space.Registry
import OscAddressing.Proofs.Space.Resolve

/-!
# Exact addresses

An address can be looked up in two ways: by splitting it and following its names, or by reading it
as a pattern. `exact_lookup_after` says that the two agree, in the space after any run, for every
text without pattern syntax, and that every registered address is such a text. No text with a
segment that cannot name a node is registered.

The lookup by pattern filters the list of methods, and a pattern without syntax covers its own
segments only (`exists_ofTextWith`), however patterns are read. At most one method is at a path; so
it remains to see that an address is split into the path that it was written from.
-/

namespace OscAddressing

/-! ### Patterns without pattern syntax -/

namespace AddressPattern

/-- **A pattern without pattern syntax covers its own segments only**, with whatever options it is
read. -/
theorem exists_ofTextWith {t : Text} (h : (ofText t).isLiteral = true) (options : PatternOptions) :
    ∃ pattern, ofTextWith options t = .ok pattern ∧
      ∀ path, covers pattern.components path = decide (path = Path.ofText t) := by
  have hpath : ∀ path : Path, (∀ name ∈ path, (Component.ofText name).isLiteral = true) →
      ∃ components, path.mapM (Component.ofTextWith options) = .ok components ∧
        ∀ path', covers components path' = decide (path' = path) := by
    intro path
    induction path with
    | nil =>
      refine fun _ ↦ ⟨[], rfl, fun path' ↦ ?_⟩
      rw [covers_nil]
      cases path' <;> rfl
    | cons name rest ih =>
      intro hliteral
      rw [List.forall_mem_cons] at hliteral
      obtain ⟨component, hread, haccepts⟩ := Component.exists_ofTextWith hliteral.1 options
      obtain ⟨components, hrest, hcovers⟩ := ih hliteral.2
      refine ⟨component :: components, by rw [List.mapM_cons, hread, hrest]; rfl, fun path' ↦ ?_⟩
      cases path' with
      | nil => simp [covers_cons_nil]
      | cons name' rest' => simp [covers_cons_cons, haccepts, hcovers]
  obtain ⟨components, hread, hcovers⟩ := hpath (Path.ofText t) (by
    simpa [isLiteral, ofText] using h)
  exact ⟨⟨t, components⟩, by rw [ofTextWith, hread]; rfl, hcovers⟩

end AddressPattern

namespace Space

variable {κ : Type u}

/-! ### The method at a path -/

/-- The method that is registered at a path. -/
def methodAt? (space : Space κ) (path : Path) : Option (Method κ) :=
  (space.root.methods.find? fun entry ↦ entry.1 = path).map Prod.snd

theorem Sound.methodAt?_eq_some_iff {space : Space κ} (h : space.Sound) {path : Path}
    {method : Method κ} :
    space.methodAt? path = some method ↔ (path, method) ∈ space.root.methods := by
  rw [methodAt?, Option.map_eq_some_iff]
  constructor
  · rintro ⟨⟨path', method'⟩, hfind, rfl⟩
    obtain rfl : path' = path := by simpa using List.find?_some hfind
    exact List.mem_of_find?_eq_some hfind
  · intro hmem
    exact ⟨(path, method), find?_eq_some_of_nodup h.nodup_paths hmem, rfl⟩

/-- **An address is registered when there is a method at its path.** -/
theorem Sound.contains_eq_true_iff {space : Space κ} (h : space.Sound) {t : Text} :
    space.contains t = true ↔ ∃ method, space.methodAt? (Path.ofText t) = some method := by
  simp only [contains, Node.hasMethodAt_iff h.orderly, h.methodAt?_eq_some_iff, List.mem_map,
    Prod.exists, exists_and_right, exists_eq_right]

theorem Sound.contains_eq_false_iff {space : Space κ} (h : space.Sound) {t : Text} :
    space.contains t = false ↔ space.methodAt? (Path.ofText t) = none := by
  rw [← Bool.not_eq_true, h.contains_eq_true_iff, ← Option.isSome_iff_exists,
    Option.not_isSome_iff_eq_none]

/-- **Following a pattern without pattern syntax** leads to the method at its path, if there is one.
-/
theorem Sound.exists_resolve {space : Space κ} (h : space.Sound) {t : Text}
    (hliteral : (AddressPattern.ofText t).isLiteral = true) (options : PatternOptions) :
    ∃ pattern, AddressPattern.ofTextWith options t = .ok pattern ∧
      (space.resolve pattern).filterMap Node.method? =
        (space.methodAt? (Path.ofText t)).toList := by
  obtain ⟨pattern, hread, hcovers⟩ := AddressPattern.exists_ofTextWith hliteral options
  refine ⟨pattern, hread, ?_⟩
  rw [filterMap_resolve h]
  simp only [hcovers]
  rw [← toList_find?_of_nodup h.nodup_paths, methodAt?]
  cases space.root.methods.find? fun entry ↦ entry.1 = Path.ofText t <;> rfl

theorem Sound.exists_matched {space : Space κ} (h : space.Sound) {t : Text}
    (hliteral : (AddressPattern.ofText t).isLiteral = true) (options : PatternOptions) :
    ∃ pattern, AddressPattern.ofTextWith options t = .ok pattern ∧
      space.matched pattern = (space.methodAt? (Path.ofText t)).toList.map Method.id := by
  obtain ⟨pattern, hread, hresolve⟩ := h.exists_resolve hliteral options
  exact ⟨pattern, hread, by rw [matched_eq_map, hresolve]⟩

theorem Sound.lookup_of_isLiteral {space : Space κ} (h : space.Sound) {t : Text}
    (hliteral : (AddressPattern.ofText t).isLiteral = true) :
    space.lookup t = .ok ((space.methodAt? (Path.ofText t)).toList.map Method.id) := by
  obtain ⟨pattern, hread, hmatched⟩ := h.exists_matched hliteral space.config.patternOptions
  rw [lookup, readPattern, hread, ← hmatched]
  rfl

theorem Sound.targets_of_isLiteral {space : Space κ} (h : space.Sound) {t : Text}
    (hliteral : (AddressPattern.ofText t).isLiteral = true) :
    space.targets t = (space.methodAt? (Path.ofText t)).toList := by
  obtain ⟨pattern, hread, hresolve⟩ := h.exists_resolve hliteral space.config.patternOptions
  rw [targets, readPattern, hread, ← hresolve]

/-! ### Registered addresses -/

/-- **A registered address has no pattern syntax, and is split into the path of its method.** -/
theorem Sound.isLiteral_of_mem_methods {space : Space κ} (h : space.Sound) {path : Path}
    {method : Method κ} (hmem : (path, method) ∈ space.root.methods) :
    Path.ofText (Path.toText path) = path ∧
      (AddressPattern.ofText (Path.toText path)).isLiteral = true := by
  obtain ⟨hplain, -, hname⟩ := h.plain hmem
  have hpath := Path.ofText_toText hplain hname
  refine ⟨hpath, ?_⟩
  rw [AddressPattern.isLiteral, AddressPattern.ofText, hpath, List.all_map, List.all_eq_true]
  intro name hmem'
  have hvalid := Node.valid_of_mem_methods h.orderly hmem name hmem'
  have htokens := Component.literal?_eq_some_iff.1 (Name.isValid_iff.1 hvalid).2.2.1
  show (Component.ofText name).tokens.all Token.isLiteral = true
  rw [htokens]
  rfl

/-- The address of an identity is that of the one method that has it. -/
theorem Sound.addressOf?_of_mem_methods {space : Space κ} (h : space.Sound) {path : Path}
    {method : Method κ} (hmem : (path, method) ∈ space.root.methods) :
    space.addressOf? method.id = some (Path.toText path) := by
  rw [addressOf?, Node.pathOf?_eq, find?_eq_some_of_nodup h.nodup_methodIds hmem]
  rfl

/-- **Exact lookups in the space after any run.** For a text without pattern syntax, the lookup by
pattern succeeds, with the method at its address if it is registered and with none if it is not.
Every registered address is such a text: it is the address of its method, it is registered, and
whether it is looked up or a message is sent to it, that method and no other is reached, with the
options of the configuration or any other. A text with a segment that cannot name a node is not
registered. -/
theorem exact_lookup_after (config : Config) (run : List (Operation κ)) :
    (∀ t, (AddressPattern.ofText t).isLiteral = true →
      ((after config run).contains t = true →
        ∃ method, (Path.canonical t, method) ∈ (after config run).entries ∧
          (after config run).lookup t = .ok [method.id]) ∧
      ((after config run).contains t = false → (after config run).lookup t = .ok [])) ∧
    (∀ address method, (address, method) ∈ (after config run).entries →
      (AddressPattern.ofText address).isLiteral = true ∧
      (after config run).addressOf? method.id = some address ∧
      (after config run).contains address = true ∧
      (after config run).lookupD address = [method.id] ∧
      (∀ options, ∃ pattern, AddressPattern.ofTextWith options address = .ok pattern ∧
        (after config run).matched pattern = [method.id]) ∧
      ∀ (α : Type) (arguments : List α) context,
        (after config run).dispatch ⟨address, arguments⟩ context =
          ⟨[method.id], (method.callback?.map fun callback ↦
            ⟨method.id, callback, ⟨address, arguments⟩, context⟩).toList⟩) ∧
    ∀ t, (∃ name ∈ Path.ofText t, Name.isValid config.strictNames name = false) →
      (after config run).contains t = false := by
  have h : (after config run).Sound := sound_after config run
  refine ⟨fun t hliteral ↦ ⟨fun hcontains ↦ ?_, fun hcontains ↦ ?_⟩, ?_, ?_⟩
  · obtain ⟨method, hmethod⟩ := h.contains_eq_true_iff.1 hcontains
    have hmem := h.methodAt?_eq_some_iff.1 hmethod
    refine ⟨method, ?_, by rw [h.lookup_of_isLiteral hliteral, hmethod]; rfl⟩
    rw [Path.canonical_eq_toText (Node.path_ne_nil_of_mem_methods hmem)]
    exact mem_entries_iff.2 ⟨_, hmem, rfl⟩
  · rw [h.lookup_of_isLiteral hliteral, h.contains_eq_false_iff.1 hcontains]
    rfl
  · intro address method hentry
    obtain ⟨path, hmem, rfl⟩ := mem_entries_iff.1 hentry
    obtain ⟨hpath, hliteral⟩ := h.isLiteral_of_mem_methods hmem
    have hmethod : (after config run).methodAt? (Path.ofText (Path.toText path)) = some method :=
      hpath.symm ▸ h.methodAt?_eq_some_iff.2 hmem
    refine ⟨hliteral, h.addressOf?_of_mem_methods hmem, h.contains_eq_true_iff.2 ⟨_, hmethod⟩, ?_,
      fun options ↦ ?_, fun α arguments context ↦ ?_⟩
    · rw [lookupD, h.lookup_of_isLiteral hliteral, hmethod]
      rfl
    · obtain ⟨pattern, hread, hmatched⟩ := h.exists_matched hliteral options
      exact ⟨pattern, hread, by rw [hmatched, hmethod]; rfl⟩
    · rw [dispatch, calls, h.targets_of_isLiteral hliteral, hmethod]
      cases hcallback : method.callback? <;> simp [hcallback]
  · rintro t ⟨name, hname, hinvalid⟩
    rw [h.contains_eq_false_iff, Option.eq_none_iff_forall_not_mem]
    intro method hmethod
    have hvalid := Node.valid_of_mem_methods h.orderly (h.methodAt?_eq_some_iff.1 hmethod)
    rw [← config_after config run, hvalid name hname] at hinvalid
    exact absurd hinvalid (by simp)

-- A bracket that nothing closes is plain text, in a name as in a pattern.
example : (after {} [.register "/a[b".toList none] : Space Unit).lookupD "a[b".toList =
    [.issued 0] := by
  decide +kernel

end Space

end OscAddressing
