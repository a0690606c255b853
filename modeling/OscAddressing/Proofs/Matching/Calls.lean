import OscAddressing.Proofs.Matching.Search

/-!
# The calls that a search makes

A search calls itself, once for each candidate that it offers to the next token. `Made` lists its
calls, and `Begins` the rounds of each; both follow the definition of a call, and every round that
an observer of the search takes note of is among them. `search_safe` says of all calls what none of
them checks: there is a matcher for its token, its position in the name is a character boundary, and
no call has to be broken off.

The state of a matcher is known exactly at all times (`Begins.standing`): in the round after `k`
others, the matcher of the call stands behind the first `k` characters of the rest of the name. The
calls that it makes in between change later matchers only (`Frame.Standing.exists_offered`), so it
is advanced from where it stood. Hence a `*` has a round for each number of characters that are left
and no more, and since any other token is exhausted by its first advance, it has one round.
-/

namespace OscAddressing

namespace Search

variable {α : Type}

/-! ### Calls and their rounds -/

/-- A call that is under way: the index of its token, the byte position in the name, and the state
of the search when it was made. -/
structure Frame (α : Type) where
  index : Nat
  entry : Nat
  start : Search α

section

variable (observe : α → Round → α) (tokens : List Token) (name : Text)

/-- Go on with the token at `index`, at a byte position. -/
def goOn (index entry : Nat) (s : Search α) : Option (Bool × Search α) :=
  call observe name (tokens.length - index) index entry s

/-- What a call comes to. -/
def Frame.outcome (frame : Frame α) : Option (Bool × Search α) :=
  goOn observe tokens name frame.index frame.entry frame.start

/-- A round of a call, offered to the call for the next token. -/
def Frame.offered (frame : Frame α) (rest : Text) (m : Matcher) (s : Search α) :
    Option (Bool × Search α) :=
  offer rest frame.entry (goOn observe tokens name (frame.index + 1)) m
    (s.noted observe ⟨frame.index, frame.entry, m⟩)

/-- After `k` rounds the call has another one. `rest` is what the name has from the position of the
call on, `m` the matcher of the call and `s` the state of the search, both at the begin of this
round. -/
inductive Begins (frame : Frame α) (rest : Text) : Nat → Matcher → Search α → Prop
  /-- The first round begins with the matcher started afresh. -/
  | first {m : Matcher} : name.dropBytes? frame.entry = some rest →
      frame.start.matchers[frame.index]? = some m →
      Begins frame rest 0 m.reset (frame.start.put frame.index m.reset)
  /-- A round that came to nothing is followed by another, unless the matcher is exhausted. -/
  | next {k : Nat} {m m' : Matcher} {s s' : Search α} : Begins frame rest k m s →
      frame.offered observe tokens name rest m s = some (false, s') →
      s'.matchers[frame.index]? = some m' → (m'.advance rest).exhausted = false →
      Begins frame rest (k + 1) (m'.advance rest) (s'.put frame.index (m'.advance rest))

/-- **The calls of a search**: the one for the first token, and in every round of a call that has a
candidate one for the next token, if there is a next token. -/
inductive Made (notes : α) : Frame α → Prop
  | outermost : 0 < tokens.length →
      Made notes ⟨0, 0, ⟨tokens.map fun token ↦ { token }, notes⟩⟩
  | inner {frame : Frame α} {rest : Text} {k length : Nat} {m : Matcher} {s : Search α} :
      Made notes frame → Begins observe tokens name frame rest k m s →
      m.matches? rest = some length → frame.index + 1 < tokens.length →
      Made notes ⟨frame.index + 1, frame.entry + length,
        s.noted observe ⟨frame.index, frame.entry, m⟩⟩

end

variable {observe : α → Round → α} {tokens : List Token} {name : Text} {notes : α}

/-! ### What is known of a call -/

/-- The row has a matcher for each token, and one of them is for the call; its position in the name
is a character boundary. -/
structure Frame.Proper (tokens : List Token) (name : Text) (frame : Frame α) : Prop where
  row : frame.start.matchers.map Matcher.token = tokens
  index_lt : frame.index < tokens.length
  boundary : ∃ before rest, name = before ++ rest ∧ before.byteLength = frame.entry

/-- **Going on ends**, wherever the name is cut, and leaves earlier matchers alone. -/
theorem exists_goOn (observe : α → Round → α) {s : Search α}
    (hs : s.matchers.map Matcher.token = tokens) {index : Nat} (hindex : index ≤ tokens.length)
    (before rest : Text) :
    ∃ found s', goOn observe tokens (before ++ rest) index before.byteLength s = some (found, s') ∧
      Keeps index s s' := by
  have hsplit : s.matchers.map Matcher.token = tokens.take index ++ tokens.drop index := by
    rw [hs, List.take_append_drop]
  have hcall : Settles (tokens.take index).length s
      (call observe (before ++ rest) (tokens.drop index).length (tokens.take index).length
        before.byteLength s)
      (∃ pieces : List Text, pieces.flatten = rest ∧ Token.Divide (tokens.drop index) pieces) :=
    settles_call observe hsplit
  rw [List.length_take, List.length_drop, Nat.min_eq_left hindex] at hcall
  obtain ⟨found, s', hcall, hkeeps, -⟩ := hcall
  exact ⟨found, s', hcall, hkeeps⟩

/-- What is known of a call in the round after `k` others. -/
structure Frame.Standing (tokens : List Token) (frame : Frame α) (rest : Text) (k : Nat)
    (m : Matcher) (s : Search α) : Prop where
  /-- The matcher is for the token of the call. -/
  token : tokens[frame.index]? = some m.token
  /-- It stands behind the first `k` characters. -/
  matcher : m = { token := m.token, position := Text.byteLength (rest.take k) }
  le_length : k ≤ rest.length
  /-- Only a `*` has another round than the first. -/
  eq_zero : m.token ≠ .anyRun → k = 0
  /-- It is the one that the row has for the call. -/
  present : s.matchers[frame.index]? = some m
  keeps : Keeps frame.index frame.start s

/-- **A candidate is a piece** of what the name has from the position of the call on. -/
theorem Frame.Standing.exists_piece {frame : Frame α} {rest : Text} {k length : Nat} {m : Matcher}
    {s : Search α} (h : frame.Standing tokens rest k m s) (hmatch : m.matches? rest = some length) :
    ∃ piece rest', rest = piece ++ rest' ∧ piece.byteLength = length := by
  by_cases hrun : m.token = .anyRun
  · rw [h.matcher, hrun] at hmatch
    simp only [Matcher.matches?, Option.ite_none_right_eq_some, Option.some.injEq] at hmatch
    exact ⟨rest.take k, rest.drop k, (List.take_append_drop ..).symm, hmatch.2⟩
  · obtain ⟨piece, rest', hcut, -, hlength⟩ := (Matcher.matches?_eq_some_iff hrun).1 hmatch
    exact ⟨piece, rest', hcut, hlength⟩

/-- **A round comes back**, and the calls made in it change later matchers only. -/
theorem Frame.Standing.exists_offered {frame : Frame α} {rest : Text} {k : Nat} {m : Matcher}
    {s : Search α} (h : frame.Standing tokens rest k m s) (observe : α → Round → α)
    (hproper : frame.Proper tokens name) (hrest : name.dropBytes? frame.entry = some rest) :
    ∃ found s', frame.offered observe tokens name rest m s = some (found, s') ∧
      Keeps (frame.index + 1) s s' := by
  rw [Frame.offered, offer]
  cases hmatch : m.matches? rest with
  | none => exact ⟨false, _, rfl, .of_noted (.refl ..)⟩
  | some length =>
    obtain ⟨piece, rest', rfl, rfl⟩ := h.exists_piece hmatch
    obtain ⟨before, rfl, hentry⟩ := Text.dropBytes?_eq_some_iff.1 hrest
    have hrow : (s.noted observe ⟨frame.index, frame.entry, m⟩).matchers.map Matcher.token =
        tokens := h.keeps.tokens.trans hproper.row
    obtain ⟨found, s', hcall, hkeeps⟩ := exists_goOn observe hrow
      (Nat.succ_le_of_lt hproper.index_lt) (before ++ piece) rest'
    rw [List.append_assoc, Text.byteLength_append, hentry] at hcall
    exact ⟨found, s', hcall, hkeeps.of_noted⟩

/-- **In every round of a call its matcher stands where it should**: it was left alone while the
candidates before it were offered. -/
theorem Begins.standing {frame : Frame α} {rest : Text} {k : Nat} {m : Matcher} {s : Search α}
    (hproper : frame.Proper tokens name) (h : Begins observe tokens name frame rest k m s) :
    name.dropBytes? frame.entry = some rest ∧ frame.Standing tokens rest k m s := by
  induction h with
  | @first m hrest hm =>
    have htoken : tokens[frame.index]? = some m.token := by
      rw [← hproper.row, List.getElem?_map, hm, Option.map_some]
    exact ⟨hrest, htoken, rfl, Nat.zero_le _, fun _ ↦ rfl, getElem?_put hm, .put hm rfl⟩
  | @next k m m' s s' _ hoffered hm' hend ih =>
    obtain ⟨hrest, h⟩ := ih
    obtain ⟨_, _, hoffered', hkeeps⟩ := h.exists_offered observe hproper hrest
    obtain ⟨rfl, rfl⟩ := Prod.mk.inj (Option.some.inj (hoffered.symm.trans hoffered'))
    obtain rfl : m = m' :=
      Option.some.inj (h.present.symm.trans ((hkeeps.before _ (Nat.lt_succ_self _)).symm.trans hm'))
    -- The advance did not exhaust the matcher, so it is a `*` with characters left to take.
    have hrun : m.token = .anyRun := by
      refine Decidable.byContradiction fun hne ↦ ?_
      rw [Matcher.exhausted_advance_of_ne rest hne] at hend
      exact absurd hend (by simp)
    have hadvance : m.advance rest =
        ⟨.anyRun, Text.byteLength (rest.take (k + 1)), decide (rest.length < k + 1)⟩ := by
      rw [h.matcher, hrun, ← Matcher.advance_take,
        decide_eq_false (Nat.not_lt.2 h.le_length)]
    have hlt : k < rest.length := by simpa [hadvance, Nat.lt_succ_iff] using hend
    have htoken : (m.advance rest).token = m.token := m.token_advance rest
    refine ⟨hrest, htoken ▸ h.token, ?_, hlt, fun hne ↦ ?_, getElem?_put hm', ?_⟩
    · rw [hadvance, decide_eq_false (Nat.not_lt.2 hlt)]
    · exact absurd (htoken.trans hrun) hne
    · exact h.keeps.trans ((hkeeps.mono (Nat.le_succ _)).trans (.put hm' htoken))

/-- **Every call of a search is proper.** -/
theorem Made.proper {frame : Frame α} (h : Made observe tokens name notes frame) :
    frame.Proper tokens name := by
  induction h with
  | outermost hpos => exact ⟨by simp [Function.comp_def], hpos, [], name, rfl, rfl⟩
  | @inner frame rest k length m s _ hbegins hmatch hlt ih =>
    obtain ⟨hrest, hstanding⟩ := hbegins.standing ih
    obtain ⟨piece, rest', rfl, rfl⟩ := hstanding.exists_piece hmatch
    obtain ⟨before, rfl, hentry⟩ := Text.dropBytes?_eq_some_iff.1 hrest
    refine ⟨hstanding.keeps.tokens.trans ih.row, hlt, before ++ piece, rest', ?_, ?_⟩
    · rw [List.append_assoc]
    · rw [Text.byteLength_append, hentry]

/-- What a call comes to is what its rounds come to, from the first on. -/
theorem Frame.Proper.exists_rounds {frame : Frame α} (hproper : frame.Proper tokens name)
    (observe : α → Round → α) :
    ∃ rest m, name.dropBytes? frame.entry = some rest ∧
      frame.start.matchers[frame.index]? = some m ∧
      frame.outcome observe tokens name =
        rounds observe rest frame.index frame.entry (goOn observe tokens name (frame.index + 1))
          (rest.length + 1) (frame.start.put frame.index m.reset) := by
  obtain ⟨before, rest, hname, hentry⟩ := hproper.boundary
  have hrest : name.dropBytes? frame.entry = some rest :=
    Text.dropBytes?_eq_some_iff.2 ⟨before, hname, hentry⟩
  have hlt : frame.index < frame.start.matchers.length := by
    rw [← List.length_map Matcher.token, hproper.row]
    exact hproper.index_lt
  have hleft : tokens.length - frame.index = tokens.length - (frame.index + 1) + 1 := by
    have := hproper.index_lt
    omega
  have hm : frame.start.matchers[frame.index]? = some frame.start.matchers[frame.index] :=
    List.getElem?_eq_getElem hlt
  refine ⟨rest, _, hrest, hm, ?_⟩
  rw [Frame.outcome, goOn, hleft, call, hrest, hm]
  rfl

/-! ### What an observer takes note of -/

/-- The observer that keeps all rounds, the latest first. -/
def keepAll (noted : List Round) (round : Round) : List Round := round :: noted

/-- Some call of the search has this round. -/
def Occurs (tokens : List Token) (name : Text) (round : Round) : Prop :=
  ∃ (frame : Frame (List Round)) (rest : Text) (k : Nat) (m : Matcher) (s : Search (List Round)),
    Made keepAll tokens name [] frame ∧ Begins keepAll tokens name frame rest k m s ∧
      round = ⟨frame.index, frame.entry, m⟩

section Occurs

variable {frame : Frame (List Round)} {rest : Text} {k : Nat} {m : Matcher}
  {s s' : Search (List Round)} {found : Bool}

/-- Every round that the call has added to the notes occurs. -/
def Frame.Accounted (tokens : List Token) (name : Text) (frame : Frame (List Round)) : Prop :=
  ∀ {found s'}, frame.outcome keepAll tokens name = some (found, s') →
    ∀ round ∈ s'.notes, round ∈ frame.start.notes ∨ Occurs tokens name round

/-- In a round of a call, this round is noted, and then those of the call made in it. -/
theorem Begins.accounted_offered (hmade : Made keepAll tokens name [] frame)
    (hinner : ∀ inner, Made keepAll tokens name [] inner → inner.index = frame.index + 1 →
      inner.Accounted tokens name)
    (hbegins : Begins keepAll tokens name frame rest k m s)
    (hoffered : frame.offered keepAll tokens name rest m s = some (found, s')) :
    ∀ round ∈ s'.notes, round ∈ s.notes ∨ Occurs tokens name round := by
  have hnoted : ∀ round ∈ (s.noted keepAll ⟨frame.index, frame.entry, m⟩).notes,
      round ∈ s.notes ∨ Occurs tokens name round := by
    intro round hround
    rcases List.mem_cons.1 hround with rfl | hround
    · exact .inr ⟨frame, rest, k, m, s, hmade, hbegins, rfl⟩
    · exact .inl hround
  rw [Frame.offered, offer] at hoffered
  cases hmatch : m.matches? rest with
  | none =>
    simp only [hmatch] at hoffered
    obtain ⟨-, rfl⟩ := Prod.mk.inj (Option.some.inj hoffered)
    exact hnoted
  | some length =>
    simp only [hmatch] at hoffered
    by_cases hlt : frame.index + 1 < tokens.length
    · intro round hround
      exact (hinner _ (hmade.inner hbegins hmatch hlt) rfl hoffered round hround).elim
        (hnoted round) .inr
    · -- There is no next token, and so no call.
      rw [goOn, Nat.sub_eq_zero_of_le (Nat.le_of_not_lt hlt), call] at hoffered
      obtain ⟨-, rfl⟩ := Prod.mk.inj (Option.some.inj hoffered)
      exact hnoted

theorem Begins.accounted_rounds (hmade : Made keepAll tokens name [] frame)
    (hinner : ∀ inner, Made keepAll tokens name [] inner → inner.index = frame.index + 1 →
      inner.Accounted tokens name)
    (hbegins : Begins keepAll tokens name frame rest k m s) {left : Nat}
    (hrounds : rounds keepAll rest frame.index frame.entry
      (goOn keepAll tokens name (frame.index + 1)) left s = some (found, s')) :
    ∀ round ∈ s'.notes, round ∈ s.notes ∨ Occurs tokens name round := by
  induction left generalizing k m s with
  | zero => exact absurd hrounds (by simp [rounds])
  | succ left ih =>
    obtain ⟨hrest, hstanding⟩ := hbegins.standing hmade.proper
    obtain ⟨found₁, s₁, hoffered, hkeeps⟩ :=
      hstanding.exists_offered keepAll hmade.proper hrest
    have hm₁ : s₁.matchers[frame.index]? = some m :=
      (hkeeps.before _ (Nat.lt_succ_self _)).trans hstanding.present
    have hround := hbegins.accounted_offered hmade hinner hoffered
    cases found₁ with
    | true =>
      rw [rounds_of_found hstanding.present hoffered] at hrounds
      obtain ⟨-, rfl⟩ := Prod.mk.inj (Option.some.inj hrounds)
      exact hround
    | false =>
      cases hend : (m.advance rest).exhausted with
      | true =>
        rw [rounds_of_exhausted hstanding.present hoffered hm₁ hend] at hrounds
        obtain ⟨-, rfl⟩ := Prod.mk.inj (Option.some.inj hrounds)
        exact hround
      | false =>
        rw [rounds_of_advance hstanding.present hoffered hm₁ hend] at hrounds
        intro round hmem
        exact (ih (hbegins.next hoffered hm₁ hend) hrounds round hmem).elim (hround round) .inr

/-- **Every round that a call notes is one of its own or of a call that it makes.** The induction is
on the number of tokens from that of the call on. -/
theorem Made.accounted (hmade : Made keepAll tokens name [] frame) :
    frame.Accounted tokens name := by
  induction hleft : tokens.length - frame.index generalizing frame with
  | zero =>
    have hlt := hmade.proper.index_lt
    omega
  | succ left ih =>
    have hinner : ∀ inner, Made keepAll tokens name [] inner → inner.index = frame.index + 1 →
        inner.Accounted tokens name :=
      fun inner hmade' hindex ↦ ih hmade' (by omega)
    obtain ⟨rest, m, hrest, hm, houtcome⟩ := hmade.proper.exists_rounds keepAll
    intro found s' hout
    rw [houtcome] at hout
    have hnotes := (Begins.first hrest hm).accounted_rounds hmade hinner hout
    exact hnotes

end Occurs

/-! ### All calls -/

/-- What can be said of a call and of its rounds. -/
structure Frame.Safe (observe : α → Round → α) (tokens : List Token) (name : Text)
    (frame : Frame α) : Prop where
  /-- There is a matcher for the token of the call. -/
  index_lt : frame.index < frame.start.matchers.length
  /-- The position of the call is a character boundary of the name. -/
  boundary : ∃ rest, name.dropBytes? frame.entry = some rest
  /-- The call ends, with the earlier matchers as they were. -/
  ends : ∃ found s, frame.outcome observe tokens name = some (found, s) ∧
    ∀ i < frame.index, s.matchers[i]? = frame.start.matchers[i]?
  /-- A matcher that is asked for a candidate is that of the token, and it stands at a character
  boundary of the rest. -/
  asked : ∀ {rest k m s}, Begins observe tokens name frame rest k m s →
    tokens[frame.index]? = some m.token ∧ s.matchers[frame.index]? = some m ∧
      (∃ untaken, rest.dropBytes? m.position = some untaken) ∧
      ∀ i < frame.index, s.matchers[i]? = frame.start.matchers[i]?
  /-- The candidate comes back, and the matcher, which may be advanced then, stands where it
  stood. -/
  back : ∀ {rest k m s}, Begins observe tokens name frame rest k m s →
    ∃ found s', frame.offered observe tokens name rest m s = some (found, s') ∧
      s'.matchers[frame.index]? = some m ∧
      ∀ i < frame.index, s'.matchers[i]? = frame.start.matchers[i]?
  /-- There is one round at most, unless the token is a `*`. -/
  once : ∀ {rest k m s}, Begins observe tokens name frame rest k m s → m.token ≠ .anyRun → k < 1
  /-- There is at most one for each character that is left, and one more. -/
  often : ∀ {rest k m s}, Begins observe tokens name frame rest k m s → k < rest.length + 1

theorem Frame.Proper.safe {frame : Frame α} (hproper : frame.Proper tokens name) :
    frame.Safe observe tokens name where
  index_lt := by
    rw [← List.length_map Matcher.token, hproper.row]
    exact hproper.index_lt
  boundary := by
    obtain ⟨before, rest, hname, hentry⟩ := hproper.boundary
    exact ⟨rest, Text.dropBytes?_eq_some_iff.2 ⟨before, hname, hentry⟩⟩
  ends := by
    obtain ⟨before, rest, rfl, hentry⟩ := hproper.boundary
    obtain ⟨found, s, hgo, hkeeps⟩ :=
      exists_goOn observe hproper.row (Nat.le_of_lt hproper.index_lt) before rest
    rw [hentry] at hgo
    exact ⟨found, s, hgo, hkeeps.before⟩
  asked := by
    intro rest k m s hbegins
    obtain ⟨-, h⟩ := hbegins.standing hproper
    refine ⟨h.token, h.present, ⟨rest.drop k, ?_⟩, h.keeps.before⟩
    rw [h.matcher]
    exact Text.dropBytes?_eq_some_iff.2 ⟨rest.take k, (List.take_append_drop ..).symm, rfl⟩
  back := by
    intro rest k m s hbegins
    obtain ⟨hrest, h⟩ := hbegins.standing hproper
    obtain ⟨found, s', hoffered, hkeeps⟩ := h.exists_offered observe hproper hrest
    refine ⟨found, s', hoffered, ?_, (h.keeps.trans (hkeeps.mono (Nat.le_succ _))).before⟩
    exact (hkeeps.before _ (Nat.lt_succ_self _)).trans h.present
  once := by
    intro rest k m s hbegins hne
    obtain ⟨-, h⟩ := hbegins.standing hproper
    rw [h.eq_zero hne]
    exact Nat.zero_lt_one
  often := by
    intro rest k m s hbegins
    obtain ⟨-, h⟩ := hbegins.standing hproper
    exact Nat.lt_succ_of_le h.le_length

/-- **A search never leaves the name or the row of matchers, and it ends.** It ends with the verdict
on the name, whoever observes it. Every call that it makes is safe: there is a matcher for its
token, its position is a character boundary of the name, its own matcher stands at a character
boundary of the rest whenever it is asked for a candidate or advanced, earlier matchers are left
alone, and the call has one round at most if its token is no `*` and otherwise at most one for each
character left and one more. The rounds that the search has been through are those of such calls. -/
theorem search_safe (tokens : List Token) (name : Text) :
    (∀ {α : Type} (observe : α → Round → α) (notes : α),
      (∃ s, run observe notes tokens name = some (matchesWhole tokens name, s)) ∧
      ∀ frame, Made observe tokens name notes frame → frame.Safe observe tokens name) ∧
    ∃ noted, trace tokens name = some noted ∧ ∀ round ∈ noted, Occurs tokens name round := by
  refine ⟨fun observe notes ↦ ⟨exists_run observe notes tokens name,
    fun frame hmade ↦ hmade.proper.safe⟩, ?_⟩
  obtain ⟨s, hrun⟩ := exists_run keepAll [] tokens name
  refine ⟨s.notes.reverse, by rw [trace]; exact congrArg (Option.map _) hrun, fun round hround ↦ ?_⟩
  rw [List.mem_reverse] at hround
  cases tokens with
  | nil =>
    rw [run, List.length_nil, call] at hrun
    obtain ⟨-, rfl⟩ := Prod.mk.inj (Option.some.inj hrun)
    exact absurd hround List.not_mem_nil
  | cons token tokens =>
    have hmade : Made keepAll (token :: tokens) name [] _ := .outermost (Nat.succ_pos _)
    exact (hmade.accounted hrun round hround).resolve_left List.not_mem_nil

/-- The second call for the literal is made behind a character of two bytes, in the second round of
the `*`. -/
theorem search_safe_second :
    let tokens : List Token := [.anyRun, .literal ['b']]
    let name := ['é', 'b']
    let frame : Frame Unit := ⟨1, 2, ⟨[{ token := .anyRun, position := 2 },
      { token := .literal ['b'], exhausted := true }], ()⟩⟩
    Made (fun _ _ ↦ ()) tokens name () frame ∧ frame.Safe (fun _ _ ↦ ()) tokens name := by
  intro tokens name frame
  let start : Search Unit := ⟨tokens.map fun token ↦ { token }, ()⟩
  let outermost : Frame Unit := ⟨0, 0, start⟩
  let run : Matcher := { token := .anyRun }
  have hfirst : Begins (fun _ _ ↦ ()) tokens name outermost name 0 run.reset
      (start.put 0 run.reset) :=
    .first rfl rfl
  let back : Search Unit := ⟨[run, { token := .literal ['b'], exhausted := true }], ()⟩
  have hsecond : Begins (fun _ _ ↦ ()) tokens name outermost name 1 (run.advance name)
      (back.put 0 (run.advance name)) :=
    hfirst.next rfl rfl rfl
  have hmade : Made (fun _ _ ↦ ()) tokens name () frame :=
    .inner (.outermost (by decide)) hsecond rfl (by decide)
  exact ⟨hmade, ((search_safe tokens name).1 (fun _ _ ↦ ()) ()).2 frame hmade⟩

end Search

end OscAddressing
