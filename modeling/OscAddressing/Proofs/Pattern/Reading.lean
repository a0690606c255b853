import OscAddressing.Pattern.AddressPattern
import OscAddressing.Proofs.Pattern.Layout

/-!
# Reading segments and patterns with options

With whatever options a segment is read, its tokens are those that the scanner finds; an option can
only make the reading fail. What is refused are backward ranges. They are looked for in all ranges
of a pattern from left to right (`AddressPattern.ranges`), across segments, brackets and members, so
`AddressPattern.ofTextWith_reject` can say which of them the error names: the first.

A segment without pattern syntax has no ranges. It is read with any options and accepts itself only
(`Component.exists_ofTextWith`).
-/

namespace OscAddressing

/-! ### Ranges -/

/-- The ends of a range. -/
def CharGroup.range? : CharGroup → Option (Char × Char)
  | single _ => none
  | range first last => some (first, last)

/-- The ranges between brackets, as they are written. -/
def Token.ranges : Token → List (Char × Char)
  | charSet _ groups => groups.filterMap CharGroup.range?
  | _ => []

/-- The ranges of a component, from left to right. -/
def Component.ranges (component : Component) : List (Char × Char) :=
  component.tokens.flatMap Token.ranges

/-- The ranges of a pattern, from left to right. -/
def AddressPattern.ranges (pattern : AddressPattern) : List (Char × Char) :=
  pattern.components.flatMap Component.ranges

theorem Token.mem_ranges_iff {token : Token} {first last : Char} :
    (first, last) ∈ token.ranges ↔
      ∃ exclusion groups, token = .charSet exclusion groups ∧ .range first last ∈ groups := by
  have hrange : ∀ group : CharGroup, group.range? = some (first, last) ↔ group = .range first last
    | .single c => by simp [CharGroup.range?]
    | .range a b => by simp [CharGroup.range?]
  cases token <;> simp [ranges, hrange]

theorem AddressPattern.mem_ranges_iff {pattern : AddressPattern} {first last : Char} :
    (first, last) ∈ pattern.ranges ↔ ∃ component ∈ pattern.components, ∃ exclusion groups,
      .charSet exclusion groups ∈ component.tokens ∧ .range first last ∈ groups := by
  simp only [ranges, Component.ranges, List.mem_flatMap, Token.mem_ranges_iff]
  refine exists_congr fun component ↦ and_congr_right fun _ ↦ ?_
  constructor
  · rintro ⟨_, htoken, exclusion, groups, rfl, hgroup⟩
    exact ⟨exclusion, groups, htoken, hgroup⟩
  · rintro ⟨exclusion, groups, htoken, hgroup⟩
    exact ⟨_, htoken, exclusion, groups, rfl, hgroup⟩

/-- The range of these ends runs backwards. -/
def IsBackward (ends : Char × Char) : Prop := ends.2 < ends.1

instance : DecidablePred IsBackward := fun ends ↦ inferInstanceAs (Decidable (ends.2 < ends.1))

theorem CharGroup.reversed?_eq (group : CharGroup) :
    group.reversed? = group.range?.filter fun ends ↦ IsBackward ends := by
  cases group with
  | single c => rfl
  | range first last =>
    rw [reversed?, range?, Option.filter_some]
    by_cases hlt : last < first <;> simp [IsBackward, hlt]

theorem Token.reversed?_eq (token : Token) :
    token.reversed? = token.ranges.find? fun ends ↦ IsBackward ends := by
  cases token with
  | charSet exclusion groups =>
    rw [reversed?, ranges, ← List.head?_filter, List.filter_filterMap, ← List.head?_filterMap]
    exact congrArg (fun f ↦ (groups.filterMap f).head?) (funext CharGroup.reversed?_eq)
  | _ => rfl

/-- **The first backward range among tokens** is the first among all ranges that runs backwards. -/
theorem Pattern.firstReversed?_eq (tokens : List Token) :
    firstReversed? tokens =
      (tokens.flatMap Token.ranges).find? fun ends ↦ IsBackward ends := by
  rw [firstReversed?, List.find?_flatMap]
  exact congrArg (tokens.findSome? ·) (funext Token.reversed?_eq)

/-! ### Refusal -/

/-- Refuse something for the first backward range among those given, if there is one. -/
def refuse {α : Type} (ranges : List (Char × Char)) (a : α) : Except Error α :=
  match ranges.find? fun ends ↦ IsBackward ends with
  | some ends => .error (.invalidRange ends.1 ends.2)
  | none => .ok a

section Refuse

variable {α β : Type} {ranges : List (Char × Char)} {a : α} {e : Error}

theorem refuse_of_forall (h : ∀ ends ∈ ranges, ¬IsBackward ends) : refuse ranges a = .ok a := by
  have hnone : (ranges.find? fun ends ↦ IsBackward ends) = none := by simpa using h
  rw [refuse, hnone]

theorem exists_refuse_eq_error_iff :
    (∃ e, refuse ranges a = .error e) ↔ ∃ ends ∈ ranges, IsBackward ends := by
  constructor
  · rintro ⟨e, h⟩
    by_contra hnone
    rw [refuse_of_forall fun ends hends hbackward ↦ hnone ⟨ends, hends, hbackward⟩] at h
    exact absurd h (by simp)
  · rintro ⟨ends, hends, hbackward⟩
    have hsome : (ranges.find? fun ends ↦ IsBackward ends).isSome :=
      List.find?_isSome.2 ⟨ends, hends, decide_eq_true hbackward⟩
    obtain ⟨first, hfirst⟩ := Option.isSome_iff_exists.1 hsome
    exact ⟨_, by rw [refuse, hfirst]⟩

/-- **What is refused is refused for the first backward range.** -/
theorem refuse_eq_error_iff :
    refuse ranges a = .error e ↔ ∃ before first last after,
      ranges = before ++ (first, last) :: after ∧ last < first ∧
        (∀ ends ∈ before, ends.1 ≤ ends.2) ∧ e = .invalidRange first last := by
  constructor
  · intro h
    cases hfind : ranges.find? fun ends ↦ IsBackward ends with
    | none =>
      rw [refuse, hfind] at h
      exact absurd h (by simp)
    | some ends =>
      obtain ⟨hbackward, before, after, hsplit, hbefore⟩ := List.find?_eq_some_iff_append.1 hfind
      rw [refuse, hfind] at h
      refine ⟨before, ends.1, ends.2, after, hsplit, of_decide_eq_true hbackward,
        fun ends' hends ↦ ?_, (Except.error.inj h).symm⟩
      have hnot : ¬IsBackward ends' := by simpa using hbefore ends' hends
      exact Char.not_lt.1 hnot
  · rintro ⟨before, first, last, after, rfl, hlt, hbefore, rfl⟩
    have hfind : ((before ++ (first, last) :: after).find? fun ends ↦ IsBackward ends) =
        some (first, last) := by
      refine List.find?_eq_some_iff_append.2
        ⟨decide_eq_true hlt, before, after, rfl, fun ends hends ↦ ?_⟩
      have hnot : ¬IsBackward ends := Char.not_lt.2 (hbefore ends hends)
      simpa using hnot
    rw [refuse, hfind]

/-- Refusing a list for the ranges of its elements is refusing each of them, from left to right. -/
theorem refuse_cons (ranges ranges' : List (Char × Char)) (a : α) (others : List α) :
    refuse (ranges ++ ranges') (a :: others) =
      (refuse ranges a >>= fun a ↦ refuse ranges' others >>= fun others ↦ pure (a :: others)) := by
  rw [refuse, refuse, refuse, List.find?_append]
  cases ranges.find? fun ends ↦ IsBackward ends with
  | some ends => rfl
  | none => cases ranges'.find? fun ends ↦ IsBackward ends <;> rfl

theorem refuse_map (ranges : List (Char × Char)) (f : α → β) (a : α) :
    refuse ranges (f a) = (refuse ranges a >>= fun a ↦ pure (f a)) := by
  rw [refuse, refuse]
  cases ranges.find? fun ends ↦ IsBackward ends <;> rfl

end Refuse

/-! ### Components -/

namespace Component

/-- The component that a segment is read as when nothing is refused. -/
def read (order : AlternativeOrder) (segment : Text) : Component where
  raw := segment
  tokens := Pattern.scan order segment

theorem ofTextWith_lenient (order : AlternativeOrder) (segment : Text) :
    ofTextWith ⟨.lenient, order⟩ segment = .ok (read order segment) := rfl

theorem ofTextWith_reject (order : AlternativeOrder) (segment : Text) :
    ofTextWith ⟨.reject, order⟩ segment =
      refuse (read order segment).ranges (read order segment) := by
  have hreversed : (Pattern.Scanner.through order segment).reversed? =
      (read order segment).ranges.find? fun ends ↦ IsBackward ends := by
    rw [Pattern.reversed?_through, Pattern.firstReversed?_eq]
    rfl
  rw [ofTextWith, refuse, ← hreversed]
  cases (Pattern.Scanner.through order segment).reversed? <;> rfl

theorem literal?_eq_some_iff {component : Component} {text : Text} :
    component.literal? = some text ↔ component.tokens = [.literal text] := by
  rw [literal?]
  split
  case h_1 other heq => simp [heq]
  case h_2 hother => exact iff_of_false (by simp) (hother text)

/-- **A segment without pattern syntax accepts itself only**, with whatever options it is read. -/
theorem exists_ofTextWith {segment : Text} (h : (ofText segment).isLiteral = true)
    (options : PatternOptions) :
    ∃ component, ofTextWith options segment = .ok component ∧
      ∀ name, component.accepts name = decide (name = segment) := by
  obtain ⟨policy, order⟩ := options
  have hread : (read order segment).ranges = [] →
      ofTextWith ⟨policy, order⟩ segment = .ok (read order segment) := by
    intro hranges
    cases policy with
    | lenient => exact ofTextWith_lenient order segment
    | reject => rw [ofTextWith_reject, hranges]; rfl
  rcases Pattern.scan_of_all_isLiteral h with rfl | hscan
  · have htokens : (read order []).tokens = [] := Pattern.scan_nil order
    refine ⟨read order [], hread (by rw [ranges, htokens]; rfl), fun name ↦ ?_⟩
    rw [accepts, htokens]
    cases name <;> rfl
  · have htokens : (read order segment).tokens = [.literal segment] :=
      Pattern.scan_eq_literal_iff.2 (Pattern.scan_eq_literal_iff.1 hscan)
    refine ⟨read order segment, hread (by rw [ranges, htokens]; rfl), fun name ↦ ?_⟩
    rw [accepts, htokens]
    exact decide_eq_decide.2 eq_comm

end Component

namespace AddressPattern

/-- The pattern that a text is read as when nothing is refused. -/
def read (order : AlternativeOrder) (t : Text) : AddressPattern where
  raw := t
  components := (Path.ofText t).map (Component.read order)

theorem ofTextWith_lenient (order : AlternativeOrder) (t : Text) :
    ofTextWith ⟨.lenient, order⟩ t = .ok (read order t) := by
  have hpath : ∀ path : Path, path.mapM (Component.ofTextWith ⟨.lenient, order⟩) =
      .ok (path.map (Component.read order)) := by
    intro path
    induction path with
    | nil => rfl
    | cons name rest ih => rw [List.mapM_cons, Component.ofTextWith_lenient, ih]; rfl
  rw [ofTextWith, hpath]
  rfl

theorem ofTextWith_lenient_eq_ok_iff {order : AlternativeOrder} {t : Text}
    {pattern : AddressPattern} :
    ofTextWith ⟨.lenient, order⟩ t = .ok pattern ↔ read order t = pattern := by
  rw [ofTextWith_lenient, Except.ok.injEq]

/-- **A pattern is refused for the first of its backward ranges**, in whatever segment. -/
theorem ofTextWith_reject (order : AlternativeOrder) (t : Text) :
    ofTextWith ⟨.reject, order⟩ t = refuse (read order t).ranges (read order t) := by
  have hpath : ∀ path : Path, path.mapM (Component.ofTextWith ⟨.reject, order⟩) =
      refuse ((path.map (Component.read order)).flatMap Component.ranges)
        (path.map (Component.read order)) := by
    intro path
    induction path with
    | nil => rfl
    | cons name rest ih =>
      rw [List.mapM_cons, Component.ofTextWith_reject, ih, List.map_cons, List.flatMap_cons,
        refuse_cons]
  rw [ofTextWith, hpath]
  exact (refuse_map _ (AddressPattern.mk t) _).symm

end AddressPattern

end OscAddressing
