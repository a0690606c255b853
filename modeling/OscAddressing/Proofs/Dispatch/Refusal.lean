import OscAddressing.Proofs.Dispatch.Threads
import OscAddressing.Proofs.Pattern.Reading

/-!
# Patterns that are refused

A space may be configured to refuse patterns with a backward range. `refusal_after` says which
patterns these are, with which error each is refused, and what that comes to: a lookup that reports
errors reports this one, and a lookup or a dispatch that does not report any reaches no method. All
other patterns lead to what they lead to in the same tree where nothing is refused.

Patterns are read before the tree is looked at, so whether one is refused depends on the pattern
alone. Conversely, no operation reads a pattern, so a run builds the same tree whatever is refused
(`after_withPolicy`).
-/

namespace OscAddressing

namespace AddressPattern

/-- **Some range of the pattern runs backwards.** -/
def HasBackward (pattern : AddressPattern) : Prop :=
  ∃ component ∈ pattern.components, ∃ exclusion groups first last,
    .charSet exclusion groups ∈ component.tokens ∧ .range first last ∈ groups ∧ last < first

/-- **The error names the first of the ranges that run backwards**, from left to right. -/
def RefusedFor (pattern : AddressPattern) (e : Error) : Prop :=
  ∃ before first last after, pattern.ranges = before ++ (first, last) :: after ∧ last < first ∧
    (∀ ends ∈ before, ends.1 ≤ ends.2) ∧ e = .invalidRange first last

theorem hasBackward_iff {pattern : AddressPattern} :
    pattern.HasBackward ↔ ∃ ends ∈ pattern.ranges, IsBackward ends := by
  constructor
  · rintro ⟨component, hcomponent, exclusion, groups, first, last, htoken, hgroup, hlt⟩
    exact ⟨(first, last),
      mem_ranges_iff.2 ⟨component, hcomponent, exclusion, groups, htoken, hgroup⟩, hlt⟩
  · rintro ⟨⟨first, last⟩, hmem, hlt⟩
    obtain ⟨component, hcomponent, exclusion, groups, htoken, hgroup⟩ := mem_ranges_iff.1 hmem
    exact ⟨component, hcomponent, exclusion, groups, first, last, htoken, hgroup, hlt⟩

/-- **What is refused** are the patterns with a backward range, for the first one. -/
theorem ofTextWith_reject_eq_error_iff {order : AlternativeOrder} {t : Text} {e : Error} :
    ofTextWith ⟨.reject, order⟩ t = .error e ↔ (read order t).RefusedFor e := by
  rw [ofTextWith_reject, refuse_eq_error_iff, RefusedFor]

theorem exists_ofTextWith_reject_eq_error_iff {order : AlternativeOrder} {t : Text} :
    (∃ e, ofTextWith ⟨.reject, order⟩ t = .error e) ↔ (read order t).HasBackward := by
  rw [ofTextWith_reject, exists_refuse_eq_error_iff, hasBackward_iff]

/-- **Any other pattern is read as if nothing were refused.** -/
theorem ofTextWith_reject_of_not_hasBackward {order : AlternativeOrder} {t : Text}
    (h : ¬(read order t).HasBackward) : ofTextWith ⟨.reject, order⟩ t = .ok (read order t) := by
  rw [ofTextWith_reject, refuse_of_forall]
  intro ends hends hbackward
  exact h (hasBackward_iff.2 ⟨ends, hends, hbackward⟩)

end AddressPattern

namespace Space

variable {κ : Type u} {α : Type}

/-! ### Spaces that refuse patterns -/

/-- The space with the same tree and another treatment of backward ranges. -/
def withPolicy (space : Space κ) (policy : RangePolicy) : Space κ :=
  { space with config := { space.config with rangePolicy := policy } }

theorem readPattern_of_reject {space : Space κ} (h : space.config.rangePolicy = .reject)
    (t : Text) :
    space.readPattern t =
      AddressPattern.ofTextWith ⟨.reject, space.config.alternativeOrder⟩ t := by
  rw [readPattern, Config.patternOptions, h]

theorem readPattern_withPolicy_lenient (space : Space κ) (t : Text) :
    (space.withPolicy .lenient).readPattern t =
      .ok (AddressPattern.read space.config.alternativeOrder t) :=
  AddressPattern.ofTextWith_lenient space.config.alternativeOrder t

theorem lookup_eq_error_iff {space : Space κ} {t : Text} {e : Error} :
    space.lookup t = .error e ↔ space.readPattern t = .error e := by
  rw [lookup]
  cases space.readPattern t <;> simp [Except.map]

/-- **A pattern that cannot be read** matches no method. -/
theorem lookupD_of_error {space : Space κ} {t : Text} {e : Error}
    (h : space.readPattern t = .error e) : space.lookupD t = [] := by
  rw [lookupD, lookup_eq_error_iff.2 h]

theorem targets_of_error {space : Space κ} {t : Text} {e : Error}
    (h : space.readPattern t = .error e) : space.targets t = [] := by
  rw [targets, h]

theorem calls_of_error {space : Space κ} {message : Message α} {e : Error}
    (h : space.readPattern message.address = .error e) (context : Context) :
    space.calls message context = [] := by
  rw [calls, targets_of_error h]
  rfl

/-- **A message to it** makes no call. -/
theorem dispatch_of_error {space : Space κ} {message : Message α} {e : Error}
    (h : space.readPattern message.address = .error e) (context : Context) :
    space.dispatch message context = ⟨[], []⟩ := by
  rw [dispatch, calls_of_error h, targets_of_error h]
  rfl

/-- **A pattern that is not refused** leads to what it leads to where nothing is refused. -/
theorem eq_withPolicy_lenient {space : Space κ} {t : Text}
    (h : space.readPattern t = .ok (AddressPattern.read space.config.alternativeOrder t)) :
    space.lookup t = (space.withPolicy .lenient).lookup t ∧
      space.targets t = (space.withPolicy .lenient).targets t := by
  constructor
  · rw [lookup, lookup, h, readPattern_withPolicy_lenient]
    rfl
  · rw [targets, targets, h, readPattern_withPolicy_lenient]
    rfl

/-! ### What is registered does not depend on what is refused -/

theorem registerD_withPolicy (space : Space κ) (policy : RangePolicy) (address : Text)
    (callback? : Option κ) :
    ((space.withPolicy policy).registerD address callback?).2 =
      (space.registerD address callback?).2.withPolicy policy := by
  have hstrict : (space.withPolicy policy).config.strictNames = space.config.strictNames := rfl
  simp only [registerD, register, hstrict]
  cases Name.refusal? space.config.strictNames (Path.ofText address) <;> rfl

theorem unregisterPath_withPolicy (space : Space κ) (policy : RangePolicy) (path : Path) :
    (space.withPolicy policy).unregisterPath path =
      ((space.unregisterPath path).1, (space.unregisterPath path).2.withPolicy policy) := by
  have hroot : (space.withPolicy policy).root = space.root := rfl
  simp only [unregisterPath, hroot]
  cases space.root.hasMethodAt path with
  | false => rfl
  | true =>
    cases space.root.detach? false path with
    | some root => rfl
    | none => cases space.root.demote? path <;> rfl

theorem unregisterAndPrune_withPolicy (space : Space κ) (policy : RangePolicy) (address : Text) :
    ((space.withPolicy policy).unregisterAndPrune address).2 =
      (space.unregisterAndPrune address).2.withPolicy policy := by
  simp only [unregisterAndPrune, unregisterPath_withPolicy]
  rcases space.unregisterPath (Path.ofText address) with ⟨_ | _, space'⟩ <;> rfl

theorem unregisterId_withPolicy (space : Space κ) (policy : RangePolicy) (id : MethodId) :
    ((space.withPolicy policy).unregisterId id).2 =
      (space.unregisterId id).2.withPolicy policy := by
  have hroot : (space.withPolicy policy).root = space.root := rfl
  simp only [unregisterId, hroot]
  cases space.root.pathOf? id with
  | none => rfl
  | some path => exact congrArg Prod.snd (unregisterPath_withPolicy space policy path)

/-- **An operation** does the same to the tree whatever is refused. -/
theorem step_withPolicy (space : Space κ) (policy : RangePolicy) (operation : Operation κ) :
    (space.withPolicy policy).step operation = (space.step operation).withPolicy policy := by
  cases operation with
  | register address callback? => exact registerD_withPolicy ..
  | unregister address => exact congrArg Prod.snd (unregisterPath_withPolicy ..)
  | unregisterAndPrune address => exact unregisterAndPrune_withPolicy ..
  | unregisterId id => exact unregisterId_withPolicy ..
  | clear => rfl

/-- **So does a run**, which leads to the same tree. -/
theorem after_withPolicy (config : Config) (policy : RangePolicy) (run : List (Operation κ)) :
    after { config with rangePolicy := policy } run = (after config run).withPolicy policy := by
  have hfoldl : ∀ space : Space κ,
      run.foldl step (space.withPolicy policy) = (run.foldl step space).withPolicy policy := by
    induction run with
    | nil => exact fun _ ↦ rfl
    | cons operation run ih =>
      intro space
      rw [List.foldl_cons, List.foldl_cons, step_withPolicy, ih]
  exact hfoldl (.empty config)

end Space

/-! ### What a refusal comes to -/

/-- **Where callbacks act on the space**, a message that cannot be read makes no call either, so
nothing is changed. -/
theorem Live.dispatch_of_error {τ α : Type} {live : Live τ α} {message : Message α} {e : Error}
    (h : live.space.readPattern message.address = .error e) (context : Context) :
    Live.dispatch message context live = some ([], live) := by
  rw [Live.dispatch, Live.dispatchAt_eq_some_iff, Space.calls_of_error h, Space.targets_of_error h,
    Live.runCalls]
  exact ⟨rfl, rfl⟩

namespace Space

variable {κ : Type u}

theorem lookup_reject_eq_error_iff {space : Space κ} (h : space.config.rangePolicy = .reject)
    {t : Text} {e : Error} :
    space.lookup t = .error e ↔
      (AddressPattern.read space.config.alternativeOrder t).RefusedFor e := by
  rw [lookup_eq_error_iff, readPattern_of_reject h, AddressPattern.ofTextWith_reject_eq_error_iff]

theorem exists_readPattern_eq_error_iff {space : Space κ} (h : space.config.rangePolicy = .reject)
    {t : Text} :
    (∃ e, space.readPattern t = .error e) ↔
      (AddressPattern.read space.config.alternativeOrder t).HasBackward := by
  rw [readPattern_of_reject h, AddressPattern.exists_ofTextWith_reject_eq_error_iff]

/-- **What is refused, and what that comes to.** Reading a pattern never fails when nothing is
refused, and the default is that. When backward ranges are refused, a pattern is an error if it has
one, for the first of them, and is read in the same way if it has none.

In the space after any run that refuses backward ranges, a lookup of such a pattern is this error,
whatever is registered; no method is matched and no call is made, not even where callbacks act on
the space. Any other pattern matches the same methods in the same order as in the same tree where
nothing is refused, which is the tree after the same run there. -/
theorem refusal_after (κ : Type u) (τ α : Type) :
    (∀ order t, ∃ pattern, AddressPattern.ofTextWith ⟨.lenient, order⟩ t = .ok pattern ∧
      ((∃ e, AddressPattern.ofTextWith ⟨.reject, order⟩ t = .error e) ↔ pattern.HasBackward) ∧
      (∀ e, AddressPattern.ofTextWith ⟨.reject, order⟩ t = .error e ↔ pattern.RefusedFor e) ∧
      (¬pattern.HasBackward → AddressPattern.ofTextWith ⟨.reject, order⟩ t = .ok pattern)) ∧
    (∀ t, AddressPattern.ofTextWith {} t = .ok (.ofText t)) ∧
    (∀ (config : Config) (run : List (Operation κ)) (t : Text) (pattern : AddressPattern),
      config.rangePolicy = .reject →
      AddressPattern.ofTextWith ⟨.lenient, config.alternativeOrder⟩ t = .ok pattern →
      let space := after config run
      let lenient := space.withPolicy .lenient
      lenient = after { config with rangePolicy := .lenient } run ∧
      ((∃ e, space.lookup t = .error e) ↔ pattern.HasBackward) ∧
      (∀ e, space.lookup t = .error e ↔ pattern.RefusedFor e) ∧
      (pattern.HasBackward → space.lookupD t = [] ∧
        ∀ (arguments : List α) context, space.dispatch ⟨t, arguments⟩ context = ⟨[], []⟩) ∧
      (¬pattern.HasBackward →
        space.lookup t = lenient.lookup t ∧ space.lookupD t = lenient.lookupD t ∧
        ∀ (arguments : List α) context,
          space.dispatch ⟨t, arguments⟩ context = lenient.dispatch ⟨t, arguments⟩ context)) ∧
    ∀ (live : Live τ α) (t : Text) (pattern : AddressPattern),
      live.space.config.rangePolicy = .reject →
      AddressPattern.ofTextWith ⟨.lenient, live.space.config.alternativeOrder⟩ t = .ok pattern →
      pattern.HasBackward →
      ∀ (arguments : List α) context,
        Live.dispatch ⟨t, arguments⟩ context live = some ([], live) := by
  refine ⟨fun order t ↦ ⟨.read order t, AddressPattern.ofTextWith_lenient order t,
      AddressPattern.exists_ofTextWith_reject_eq_error_iff,
      fun e ↦ AddressPattern.ofTextWith_reject_eq_error_iff,
      AddressPattern.ofTextWith_reject_of_not_hasBackward⟩,
    AddressPattern.ofTextWith_lenient .longest, ?_, ?_⟩
  · intro config run t pattern hreject hpattern
    obtain rfl := AddressPattern.ofTextWith_lenient_eq_ok_iff.1 hpattern
    generalize hspace : after config run = space
    obtain rfl : space.config = config := hspace ▸ config_after config run
    have hexists := exists_readPattern_eq_error_iff hreject (t := t)
    refine ⟨?_, ?_, fun e ↦ lookup_reject_eq_error_iff hreject, fun hbackward ↦ ?_, fun hnot ↦ ?_⟩
    · rw [after_withPolicy, hspace]
    · simpa only [lookup_eq_error_iff] using hexists
    · obtain ⟨e, he⟩ := hexists.2 hbackward
      exact ⟨lookupD_of_error he, fun arguments context ↦ dispatch_of_error he context⟩
    · have hread := AddressPattern.ofTextWith_reject_of_not_hasBackward hnot
      rw [← readPattern_of_reject hreject] at hread
      obtain ⟨hlookup, htargets⟩ := eq_withPolicy_lenient hread
      exact ⟨hlookup, by rw [lookupD, lookupD, hlookup],
        fun arguments context ↦ by rw [dispatch, dispatch, calls, calls, htargets]⟩
  · intro live t pattern hreject hpattern hbackward arguments context
    obtain rfl := AddressPattern.ofTextWith_lenient_eq_ok_iff.1 hpattern
    obtain ⟨e, he⟩ := (exists_readPattern_eq_error_iff hreject).2 hbackward
    exact Live.dispatch_of_error he context

/-- A range in the second segment is refused also where nothing matches the first one, and a bracket
hidden by braces is not looked into. -/
theorem refusal_after_unmatched :
    let config : Config := { rangePolicy := .reject }
    let run : List (Operation Unit) := [.register "/a/m".toList (some ())]
    ((after config run).lookup "/q/[b-cz-a]".toList = .error (.invalidRange 'z' 'a') ∧
      (after config run).lookupD "/q/[b-cz-a]".toList = [] ∧
      Live.dispatch ⟨"/q/[b-cz-a]".toList, []⟩ {} (⟨.empty config, []⟩ : Live Unit Unit) =
        some ([], ⟨.empty config, []⟩)) ∧
    (after config run).lookupD "/{a,[z-a]}/m".toList =
      (after { config with rangePolicy := .lenient } run).lookupD "/{a,[z-a]}/m".toList := by
  intro config run
  have hranges : (AddressPattern.read .longest "/q/[b-cz-a]".toList).ranges =
      [('b', 'c'), ('z', 'a')] := by
    decide +kernel
  have hnone : (AddressPattern.read .longest "/{a,[z-a]}/m".toList).ranges = [] := by
    decide +kernel
  have hbackward : (AddressPattern.read .longest "/q/[b-cz-a]".toList).HasBackward :=
    AddressPattern.hasBackward_iff.2 ⟨('z', 'a'), by rw [hranges]; decide, by decide⟩
  have hnot : ¬(AddressPattern.read .longest "/{a,[z-a]}/m".toList).HasBackward := by
    rw [AddressPattern.hasBackward_iff, hnone]
    simp
  obtain ⟨-, -, hspace, hlive⟩ := refusal_after Unit Unit Unit
  obtain ⟨-, -, herror, hnothing, -⟩ :=
    hspace config run "/q/[b-cz-a]".toList _ rfl (AddressPattern.ofTextWith_lenient .longest _)
  obtain ⟨hlenient, -, -, -, hsame⟩ :=
    hspace config run "/{a,[z-a]}/m".toList _ rfl (AddressPattern.ofTextWith_lenient .longest _)
  refine ⟨⟨(herror _).2 ⟨[('b', 'c')], 'z', 'a', [], hranges, by decide, by decide, rfl⟩,
    (hnothing hbackward).1, hlive _ _ _ rfl (AddressPattern.ofTextWith_lenient .longest _)
      hbackward [] {}⟩, ?_⟩
  rw [← hlenient]
  exact (hsame hnot).2.1

end Space

end OscAddressing
