import OscAddressing.Matching.Search
import OscAddressing.Proofs.Matching.Pieces

/-!
# The search finds the pieces

`matchesWhole_iff_divide`: a name matches a token list exactly when it can be cut into pieces that
the tokens take, and the search by backtracking ends with that verdict for every token list, those
that are answered without a search included.

Two things carry the proof.

* **Calls do not disturb the calls around them.** All calls share one row of matchers. `Keeps index`
  says what a call for the token at `index` may do to it: every token stays at its place, and the
  matchers before `index` stay as they are. So a call that comes back finds its own matcher in the
  state in which it offered it (`settles_rounds_anyRun`).
* **A `*` tries every piece.** The positions that its matcher goes through are the byte lengths of
  the leading pieces of the rest, one character more at each round, and there is one round for each
  and a last one for the whole rest. The induction is on the characters not yet taken.

`Settles` puts together what is shown of a call: it ends, it keeps the row, and its verdict is
right.
-/

namespace OscAddressing

namespace Search

variable {α : Type} {observe : α → Round → α}

/-! ### What a call keeps -/

/-- What a call for the token at `index` leaves of the row of matchers. -/
structure Keeps (index : Nat) (s s' : Search α) : Prop where
  /-- Every matcher still has its token. -/
  tokens : s'.matchers.map Matcher.token = s.matchers.map Matcher.token
  /-- The matchers of the calls around this one are untouched. -/
  before : ∀ i < index, s'.matchers[i]? = s.matchers[i]?

namespace Keeps

variable {index : Nat} {s s' s'' : Search α}

theorem refl (index : Nat) (s : Search α) : Keeps index s s := ⟨rfl, fun _ _ ↦ rfl⟩

theorem trans (h : Keeps index s s') (h' : Keeps index s' s'') : Keeps index s s'' :=
  ⟨h'.tokens.trans h.tokens, fun i hi ↦ (h'.before i hi).trans (h.before i hi)⟩

/-- A call for a later token keeps what a call for an earlier one has to. -/
theorem mono {later : Nat} (hle : index ≤ later) (h : Keeps later s s') : Keeps index s s' :=
  ⟨h.tokens, fun i hi ↦ h.before i (by omega)⟩

/-- A call may change the state of its own matcher. -/
theorem put {m m' : Matcher} (hm : s.matchers[index]? = some m) (htoken : m'.token = m.token) :
    Keeps index s (s.put index m') := by
  constructor
  · refine List.ext_getElem? fun i ↦ ?_
    rw [Search.put, List.getElem?_map, List.getElem?_map, List.getElem?_set]
    split
    case isTrue heq =>
      subst heq
      have hlt := (List.getElem?_eq_some_iff.1 hm).1
      rw [if_pos hlt, hm, Option.map_some, Option.map_some, htoken]
    case isFalse => rfl
  · intro i hi
    exact List.getElem?_set_ne (by omega)

end Keeps

/-- The state after the observer has taken note of a round. -/
def noted (observe : α → Round → α) (round : Round) (s : Search α) : Search α :=
  { s with notes := observe s.notes round }

theorem Keeps.of_noted {index : Nat} {round : Round} {s s' : Search α}
    (h : Keeps index (s.noted observe round) s') : Keeps index s s' :=
  ⟨h.tokens, h.before⟩

theorem getElem?_put {s : Search α} {index : Nat} {m m' : Matcher}
    (hm : s.matchers[index]? = some m) : (s.put index m').matchers[index]? = some m' :=
  List.getElem?_set_self (List.getElem?_eq_some_iff.1 hm).1

/-- A call that began in state `s` for the token at `index` ends, keeps what it has to, and finds
exactly when `p`. -/
def Settles (index : Nat) (s : Search α) (outcome : Option (Bool × Search α)) (p : Prop) : Prop :=
  ∃ found s', outcome = some (found, s') ∧ Keeps index s s' ∧ (found = true ↔ p)

/-! ### One round -/

section Round

variable {rest : Text} {index entry left : Nat} {next : Nat → Search α → Option (Bool × Search α)}
  {s s' : Search α} {m m' : Matcher}

/-- A round that leads to a cut is the last. -/
theorem rounds_of_found (hm : s.matchers[index]? = some m)
    (hoffer : offer rest entry next m (s.noted observe ⟨index, entry, m⟩) = some (true, s')) :
    rounds observe rest index entry next (left + 1) s = some (true, s') := by
  rw [noted] at hoffer
  rw [rounds, hm]
  simp [hoffer]

/-- A round after which the matcher is exhausted is the last, too. -/
theorem rounds_of_exhausted (hm : s.matchers[index]? = some m)
    (hoffer : offer rest entry next m (s.noted observe ⟨index, entry, m⟩) = some (false, s'))
    (hm' : s'.matchers[index]? = some m') (hend : (m'.advance rest).exhausted = true) :
    rounds observe rest index entry next (left + 1) s =
      some (false, s'.put index (m'.advance rest)) := by
  rw [noted] at hoffer
  rw [rounds, hm]
  simp [hoffer, hm', hend]

/-- Any other round is followed by one with the next candidate. -/
theorem rounds_of_advance (hm : s.matchers[index]? = some m)
    (hoffer : offer rest entry next m (s.noted observe ⟨index, entry, m⟩) = some (false, s'))
    (hm' : s'.matchers[index]? = some m') (hend : (m'.advance rest).exhausted = false) :
    rounds observe rest index entry next (left + 1) s =
      rounds observe rest index entry next left (s'.put index (m'.advance rest)) := by
  rw [noted] at hoffer
  rw [rounds, hm]
  simp [hoffer, hm', hend]

end Round

/-! ### The rounds of a call -/

section Rounds

variable {rest : Text} {tokens : List Token} {index entry : Nat}
  {next : Nat → Search α → Option (Bool × Search α)} {Good : Text → Prop}

/-- Whatever piece of `rest` is taken, `next` decides whether what remains is good. -/
def Decides (tokens : List Token) (index entry : Nat) (rest : Text)
    (next : Nat → Search α → Option (Bool × Search α)) (Good : Text → Prop) : Prop :=
  ∀ (piece rest' : Text) (s : Search α), rest = piece ++ rest' →
    s.matchers.map Matcher.token = tokens →
      Settles (index + 1) s (next (entry + piece.byteLength) s) (Good rest')

/-- The candidate of a `*` that stands behind the piece `taken` is that piece. -/
theorem settles_offer_anyRun (observe : α → Round → α) {taken untaken : Text}
    (hnext : Decides tokens index entry (taken ++ untaken) next Good) {s : Search α} {round : Round}
    (hs : s.matchers.map Matcher.token = tokens) :
    Settles (index + 1) s
      (offer (taken ++ untaken) entry next { token := .anyRun, position := taken.byteLength }
        (s.noted observe round)) (Good untaken) := by
  obtain ⟨found, s', hcall, hkeeps, hfound⟩ :=
    hnext taken untaken (s.noted observe round) rfl hs
  refine ⟨found, s', ?_, hkeeps.of_noted, hfound⟩
  rw [offer, Matcher.matches?, if_pos (by simp)]
  exact hcall

/-- **A token with one candidate** needs one round. -/
theorem settles_rounds_of_ne (hnext : Decides tokens index entry rest next Good) {s : Search α}
    {m : Matcher} (hs : s.matchers.map Matcher.token = tokens)
    (hm : s.matchers[index]? = some m) (hne : m.token ≠ .anyRun) (left : Nat) :
    Settles index s (rounds observe rest index entry next (left + 1) s)
      (∃ piece rest', rest = piece ++ rest' ∧ m.token.Takes piece rest' ∧ Good rest') := by
  have hlast : ∀ s₁ : Search α, Keeps (index + 1) s s₁ →
      offer rest entry next m (s.noted observe ⟨index, entry, m⟩) = some (false, s₁) →
      ∃ s', rounds observe rest index entry next (left + 1) s = some (false, s') ∧
        Keeps index s s' := by
    intro s₁ hkeeps hoffer
    have hm₁ : s₁.matchers[index]? = some m := (hkeeps.before index (Nat.lt_succ_self _)).trans hm
    exact ⟨_, rounds_of_exhausted hm hoffer hm₁ (m.exhausted_advance_of_ne rest hne),
      (hkeeps.mono (Nat.le_succ _)).trans (.put hm₁ (m.token_advance rest))⟩
  cases hmatch : m.matches? rest with
  | none =>
    obtain ⟨s', hrounds, hkeeps⟩ :=
      hlast (s.noted observe ⟨index, entry, m⟩) ⟨rfl, fun _ _ ↦ rfl⟩ (by rw [offer, hmatch])
    refine ⟨false, s', hrounds, hkeeps, by simp, ?_⟩
    rintro ⟨piece, rest', hcut, htakes, -⟩
    have := (Matcher.matches?_eq_some_iff hne).2 ⟨piece, rest', hcut, htakes, rfl⟩
    simp [hmatch] at this
  | some length =>
    obtain ⟨piece, rest', hcut, htakes, rfl⟩ := (Matcher.matches?_eq_some_iff hne).1 hmatch
    obtain ⟨found, s₁, hcall, hkeeps, hfound⟩ :=
      hnext piece rest' (s.noted observe ⟨index, entry, m⟩) hcut hs
    have hoffer : offer rest entry next m (s.noted observe ⟨index, entry, m⟩) =
        some (found, s₁) := by
      rw [offer, hmatch]
      exact hcall
    have hgood : (∃ piece rest', rest = piece ++ rest' ∧ m.token.Takes piece rest' ∧ Good rest') ↔
        Good rest' := by
      refine ⟨?_, fun hgood ↦ ⟨piece, rest', hcut, htakes, hgood⟩⟩
      rintro ⟨piece₁, rest₁, hcut₁, htakes₁, hgood⟩
      rwa [(Token.Takes.unique hne htakes htakes₁ (hcut.symm.trans hcut₁)).2]
    cases found with
    | true =>
      exact ⟨true, s₁, rounds_of_found hm hoffer, hkeeps.of_noted.mono (Nat.le_succ _),
        hfound.trans hgood.symm⟩
    | false =>
      obtain ⟨s', hrounds, hkeeps'⟩ := hlast s₁ hkeeps.of_noted hoffer
      exact ⟨false, s', hrounds, hkeeps', hfound.trans hgood.symm⟩

/-- **A `*` tries every piece.** The matcher stands behind the piece `taken`; the rounds that are
still allowed are enough for the characters after it and for one round more. -/
theorem settles_rounds_anyRun {taken untaken : Text}
    (hnext : Decides tokens index entry (taken ++ untaken) next Good) {s : Search α} {left : Nat}
    (hs : s.matchers.map Matcher.token = tokens)
    (hm : s.matchers[index]? = some { token := .anyRun, position := taken.byteLength })
    (hleft : untaken.length < left) :
    Settles index s (rounds observe (taken ++ untaken) index entry next left s)
      (∃ piece rest', untaken = piece ++ rest' ∧ Good rest') := by
  induction untaken generalizing taken s left with
  | nil =>
    obtain ⟨left, rfl⟩ := Nat.exists_eq_succ_of_ne_zero (Nat.ne_of_gt (Nat.zero_lt_of_lt hleft))
    obtain ⟨found, s₁, hoffer, hkeeps, hfound⟩ := settles_offer_anyRun observe hnext hs
    have hgood : (∃ piece rest', [] = piece ++ rest' ∧ Good rest') ↔ Good [] := by
      refine ⟨?_, fun hgood ↦ ⟨[], [], rfl, hgood⟩⟩
      rintro ⟨piece, rest', hcut, hgood⟩
      rwa [← (List.append_eq_nil_iff.1 hcut.symm).2]
    cases found with
    | true => exact ⟨true, s₁, rounds_of_found hm hoffer, hkeeps.mono (Nat.le_succ _),
        hfound.trans hgood.symm⟩
    | false =>
      have hm₁ := (hkeeps.before index (Nat.lt_succ_self _)).trans hm
      have hend := Matcher.exhausted_advance_at_end taken false
      rw [← List.append_nil taken] at hend
      exact ⟨false, _, rounds_of_exhausted hm hoffer hm₁ (by simpa using hend),
        (hkeeps.mono (Nat.le_succ _)).trans (.put hm₁ (Matcher.token_advance ..)),
        hfound.trans hgood.symm⟩
  | cons c untaken ih =>
    obtain ⟨left, rfl⟩ := Nat.exists_eq_succ_of_ne_zero (Nat.ne_of_gt (Nat.zero_lt_of_lt hleft))
    obtain ⟨found, s₁, hoffer, hkeeps, hfound⟩ := settles_offer_anyRun observe hnext hs
    cases found with
    | true =>
      exact ⟨true, s₁, rounds_of_found hm hoffer, hkeeps.mono (Nat.le_succ _),
        fun _ ↦ ⟨[], c :: untaken, rfl, hfound.1 rfl⟩, fun _ ↦ rfl⟩
    | false =>
      have hm₁ := (hkeeps.before index (Nat.lt_succ_self _)).trans hm
      have hstep := Matcher.advance_anyRun taken c untaken false
      have hput : Keeps index s
          (s₁.put index { token := .anyRun, position := (taken ++ [c]).byteLength }) :=
        (hkeeps.mono (Nat.le_succ _)).trans (.put hm₁ rfl)
      rw [rounds_of_advance hm hoffer hm₁ (by rw [hstep]), hstep]
      -- The characters taken so far and those still to come make up the same rest.
      rw [List.append_cons taken c untaken] at hnext ⊢
      obtain ⟨found, s', hrounds, hkeeps', hfound'⟩ :=
        ih hnext (hput.tokens.trans hs) (getElem?_put hm₁) (Nat.lt_of_succ_lt_succ hleft)
      refine ⟨found, s', hrounds, hput.trans hkeeps', hfound'.trans ⟨?_, ?_⟩⟩
      · rintro ⟨piece, rest', rfl, hgood⟩
        exact ⟨c :: piece, rest', rfl, hgood⟩
      · rintro ⟨piece, rest', hcut, hgood⟩
        cases piece with
        | nil =>
          obtain rfl : c :: untaken = rest' := hcut
          exact absurd (hfound.2 hgood) (by simp)
        | cons d piece => exact ⟨piece, rest', (List.cons.inj hcut).2, hgood⟩

/-- **The rounds of a call find every piece** that its token takes before something good. -/
theorem settles_rounds (observe : α → Round → α)
    (hnext : Decides tokens index entry rest next Good) {s : Search α} {token : Token}
    (hs : s.matchers.map Matcher.token = tokens)
    (hm : s.matchers[index]? = some { token }) :
    Settles index s (rounds observe rest index entry next (rest.length + 1) s)
      (∃ piece rest', rest = piece ++ rest' ∧ token.Takes piece rest' ∧ Good rest') := by
  by_cases hne : token = .anyRun
  · subst hne
    have hrounds : Settles index s
        (rounds observe ([] ++ rest) index entry next (rest.length + 1) s)
        (∃ piece rest', rest = piece ++ rest' ∧ Good rest') :=
      settles_rounds_anyRun hnext hs hm (Nat.lt_succ_self _)
    simpa [Token.Takes] using hrounds
  · exact settles_rounds_of_ne hnext hs hm hne _

end Rounds

/-! ### Calls -/

/-- **A call decides whether the rest of the name can be cut** into pieces for the tokens from its
own on. The induction is on these tokens; the tokens of the calls around it are `done`. -/
theorem settles_call (observe : α → Round → α) {done todo : List Token} {before rest : Text}
    {s : Search α} (hs : s.matchers.map Matcher.token = done ++ todo) :
    Settles done.length s
      (call observe (before ++ rest) todo.length done.length before.byteLength s)
      (∃ pieces : List Text, pieces.flatten = rest ∧ Token.Divide todo pieces) := by
  induction todo generalizing done before rest s with
  | nil =>
    refine ⟨_, s, by rw [List.length_nil, call], .refl .., ?_⟩
    rw [beq_iff_eq, Text.byteLength_append]
    constructor
    · intro hlength
      refine ⟨[], ?_, .nil⟩
      cases rest with
      | nil => rfl
      | cons c rest =>
        have := c.utf8Size_pos
        rw [Text.byteLength_cons] at hlength
        omega
    · rintro ⟨pieces, rfl, hdivide⟩
      cases hdivide
      simp
  | cons token todo ih =>
    have hfirst : (s.matchers.map Matcher.token)[done.length]? = some token := by
      rw [hs]
      simp
    rw [List.getElem?_map, Option.map_eq_some_iff] at hfirst
    obtain ⟨m, hm, rfl⟩ := hfirst
    -- The call begins by starting its own matcher afresh; then its rounds offer the rest to the
    -- call for the next token, about which the induction hypothesis speaks.
    have hreset : Keeps done.length s (s.put done.length m.reset) := .put hm rfl
    have hnext : Decides (done ++ m.token :: todo) done.length before.byteLength rest
        (call observe (before ++ rest) todo.length (done.length + 1))
        (fun rest' ↦ ∃ pieces : List Text, pieces.flatten = rest' ∧
          Token.Divide todo pieces) := by
      rintro piece rest' s₁ rfl hs₁
      have hcall : Settles (done ++ [m.token]).length s₁
          (call observe ((before ++ piece) ++ rest') todo.length (done ++ [m.token]).length
            (before ++ piece).byteLength s₁)
          (∃ pieces : List Text, pieces.flatten = rest' ∧ Token.Divide todo pieces) :=
        ih (by rw [hs₁, List.append_cons])
      simpa using hcall
    obtain ⟨found, s', hrounds, hkeeps, hfound⟩ :=
      settles_rounds observe hnext (hreset.tokens.trans hs) (getElem?_put hm)
    refine ⟨found, s', ?_, hreset.trans hkeeps, hfound.trans ⟨?_, ?_⟩⟩
    · rw [List.length_cons, call, Text.dropBytes?_append, hm]
      exact hrounds
    · rintro ⟨piece, -, rfl, htakes, pieces, rfl, hdivide⟩
      exact ⟨piece :: pieces, rfl, .cons htakes hdivide⟩
    · rintro ⟨pieces, hcut, hdivide⟩
      cases hdivide with
      | cons htakes hdivide =>
        exact ⟨_, _, by rw [← hcut, List.flatten_cons], htakes, _, rfl, hdivide⟩

/-- **The search ends, with the right verdict**, whoever observes it. -/
theorem settles_run (observe : α → Round → α) (notes : α) (tokens : List Token) (name : Text) :
    Settles 0 ⟨tokens.map fun token ↦ { token }, notes⟩ (run observe notes tokens name)
      (∃ pieces : List Text, pieces.flatten = name ∧ Token.Divide tokens pieces) := by
  let start : Search α := ⟨tokens.map fun token ↦ { token }, notes⟩
  have hstart : start.matchers.map Matcher.token = [] ++ tokens := by
    simp [start, Function.comp_def]
  have hcall : Settles 0 start (call observe ([] ++ name) tokens.length 0 0 start)
      (∃ pieces : List Text, pieces.flatten = name ∧ Token.Divide tokens pieces) :=
    settles_call observe hstart
  exact hcall

theorem verdict_eq_some (tokens : List Token) (name : Text) :
    ∃ found, verdict tokens name = some found ∧
      (found = true ↔
        ∃ pieces : List Text, pieces.flatten = name ∧ Token.Divide tokens pieces) := by
  obtain ⟨found, s, hrun, -, hfound⟩ := settles_run (fun _ _ ↦ ()) () tokens name
  exact ⟨found, by rw [verdict, hrun, Option.map_some], hfound⟩

end Search

/-! ### Whole names -/

/-- The three token lists that are answered without a search are answered as it would. -/
theorem matchesWhole_eq_true_iff {tokens : List Token} {name : Text} :
    matchesWhole tokens name = true ↔
      ∃ pieces : List Text, pieces.flatten = name ∧ Token.Divide tokens pieces := by
  obtain ⟨found, hverdict, hfound⟩ := Search.verdict_eq_some tokens name
  unfold matchesWhole
  split
  case h_1 =>
    rw [List.isEmpty_iff]
    constructor
    · rintro rfl
      exact ⟨[], rfl, .nil⟩
    · rintro ⟨pieces, rfl, hdivide⟩
      cases hdivide
      rfl
  case h_2 text =>
    rw [decide_eq_true_iff]
    constructor
    · rintro rfl
      exact ⟨[text], by simp, .cons rfl .nil⟩
    · rintro ⟨pieces, rfl, hdivide⟩
      obtain @⟨⟩ | @⟨_, _, piece, _, rfl, ⟨⟩⟩ := hdivide
      simp
  case h_3 => simpa using ⟨[name], by simp, .cons trivial .nil⟩
  case h_4 => rw [hverdict, Option.getD_some, hfound]

/-- A search ends with this answer, whether or not one is needed, and whoever observes it. -/
theorem Search.exists_run {α : Type} (observe : α → Round → α) (notes : α) (tokens : List Token)
    (name : Text) : ∃ s, run observe notes tokens name = some (matchesWhole tokens name, s) := by
  obtain ⟨found, s, hrun, -, hfound⟩ := settles_run observe notes tokens name
  rw [← Bool.eq_iff_iff.2 (hfound.trans matchesWhole_eq_true_iff.symm)]
  exact ⟨s, hrun⟩

theorem matchesWhole_nil_iff {name : Text} : matchesWhole [] name = true ↔ name = [] := by
  rw [matchesWhole, List.isEmpty_iff]

/-- **A name is matched token by token**, whether or not a search is needed for it. -/
theorem matchesWhole_cons_iff {token : Token} {tokens : List Token} {name : Text} :
    matchesWhole (token :: tokens) name = true ↔
      ∃ piece rest, name = piece ++ rest ∧ token.Takes piece rest ∧
        matchesWhole tokens rest = true := by
  simp only [matchesWhole_eq_true_iff]
  constructor
  · rintro ⟨_, rfl, hdivide⟩
    cases hdivide with
    | cons htakes hdivide => exact ⟨_, _, List.flatten_cons, htakes, _, rfl, hdivide⟩
  · rintro ⟨piece, _, rfl, htakes, pieces, rfl, hdivide⟩
    exact ⟨piece :: pieces, List.flatten_cons, .cons htakes hdivide⟩

/-- **A name matches exactly when it can be cut into pieces that the tokens take,** one for each
token and in their order. The search by backtracking comes to an end on every token list and every
name, with the same answer. -/
theorem matchesWhole_iff_divide (tokens : List Token) (name : Text) :
    (matchesWhole tokens name = true ↔
      ∃ pieces : List Text, pieces.flatten = name ∧ Token.Divide tokens pieces) ∧
    Search.verdict tokens name = some (matchesWhole tokens name) := by
  obtain ⟨found, hverdict, hfound⟩ := Search.verdict_eq_some tokens name
  refine ⟨matchesWhole_eq_true_iff, ?_⟩
  rw [hverdict, Bool.eq_iff_iff.2 (hfound.trans matchesWhole_eq_true_iff.symm)]

-- The first alternative is final: that the second would lead to a match is of no use.
example : matchesWhole [.oneOf [['a'], ['a', 'b']], .literal ['c']] ['a', 'b', 'c'] = false := by
  decide

end OscAddressing
