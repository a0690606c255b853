import OscAddressing.Matching.Matcher

/-!
# Matching a whole name

A name matches a token list when it is cut into consecutive pieces, one for each token and each
taken by its token. `Search` finds such a cut by backtracking. It keeps one row of matchers, one for
each token; the call for a token starts its matcher afresh, offers each candidate to the call for
the next token, and advances until the matcher is exhausted. Calls know positions in the name as
byte positions.

Nothing is assumed about positions: a call whose position is not a character boundary of the name,
or whose token has no matcher, has no outcome (`none`), and neither has a call that would need more
rounds than the rest of the name has characters, plus one. An observer may take note of every
round; what it notes has no influence on the search.
-/

namespace OscAddressing

/-- What a search carries along: its row of matchers, and what the observer has noted. -/
structure Search (α : Type) where
  matchers : List Matcher
  notes : α

namespace Search

/-- One round of a call: the index of its token, the byte position in the name at which it began,
and the state of its matcher. -/
structure Round where
  index : Nat
  entry : Nat
  matcher : Matcher
  deriving DecidableEq

variable {α : Type}

/-- Put a matcher into the row. -/
def put (s : Search α) (index : Nat) (m : Matcher) : Search α :=
  { s with matchers := s.matchers.set index m }

/-- Let `next` continue behind the present candidate of a matcher, if it has one. -/
def offer (rest : Text) (entry : Nat) (next : Nat → Search α → Option (Bool × Search α))
    (m : Matcher) (s : Search α) : Option (Bool × Search α) :=
  match m.matches? rest with
  | some length => next (entry + length) s
  | none => some (false, s)

/-- The rounds of a call, of which there may be at most as many as the number given: offer the
present candidate to `next`, and advance when that came to nothing. -/
def rounds (observe : α → Round → α) (rest : Text) (index entry : Nat)
    (next : Nat → Search α → Option (Bool × Search α)) :
    Nat → Search α → Option (Bool × Search α)
  | 0, _ => none
  | left + 1, s => do
    let m ← s.matchers[index]?
    let (found, s) ←
      offer rest entry next m { s with notes := observe s.notes ⟨index, entry, m⟩ }
    if found then some (true, s)
    else do
      let m ← s.matchers[index]?
      let m := m.advance rest
      if m.exhausted then some (false, s.put index m)
      else rounds observe rest index entry next left (s.put index m)

/-- The call for the token at `index`, of which `left` tokens are still to be matched, on what
`name` has from byte `entry` on. With no token left, the name has to be used up. -/
def call (observe : α → Round → α) (name : Text) :
    Nat → Nat → Nat → Search α → Option (Bool × Search α)
  | 0, _, entry, s => some (entry == name.byteLength, s)
  | left + 1, index, entry, s => do
    let rest ← name.dropBytes? entry
    let m ← s.matchers[index]?
    rounds observe rest index entry (call observe name left (index + 1)) (rest.length + 1)
      (s.put index m.reset)

/-- The search for a cut of `name`: its verdict, and its final state. -/
def run (observe : α → Round → α) (notes : α) (tokens : List Token) (name : Text) :
    Option (Bool × Search α) :=
  call observe name tokens.length 0 0 ⟨tokens.map fun token ↦ { token }, notes⟩

/-- The rounds of a search, in order. -/
def trace (tokens : List Token) (name : Text) : Option (List Round) :=
  (run (fun rounds round ↦ round :: rounds) [] tokens name).map fun (_, s) ↦ s.notes.reverse

/-- The verdict of a search. -/
def verdict (tokens : List Token) (name : Text) : Option Bool :=
  (run (fun _ _ ↦ ()) () tokens name).map Prod.fst

end Search

/-- **Does `name` match the tokens as a whole?** No token, a single literal and a single `*` need no
search. -/
def matchesWhole (tokens : List Token) (name : Text) : Bool :=
  match tokens with
  | [] => name.isEmpty
  | [.literal text] => text = name
  | [.anyRun] => true
  | tokens => (Search.verdict tokens name).getD false

end OscAddressing
