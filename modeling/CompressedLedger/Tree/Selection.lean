import CompressedLedger.Tree.Chain

/-!
# Choosing a state tree at random

Among the active trees of the wanted kind one is chosen by random words of 32 bits.  A word `v`
and a count `n` give the product `v * n`: its high half is the index, and the word is accepted only
if the low half does not lie above a bound, the largest multiple of `n` of the form `n * 2 ^ k`
that fits in a word, less one.  Every index then belongs to the same number of words.

A source gives its words in turn and zeros after them.  A zero is always accepted, so the choice
ends.
-/

namespace CompressedLedger

/-- Random words still to come, and how many were drawn.  After the last word come zeros. -/
structure WordSource where
  words : List UInt32
  drawn : Nat
deriving DecidableEq

namespace WordSource

/-- A source that has not been drawn from. -/
def ofList (words : List UInt32) : WordSource := ⟨words, 0⟩

/-- The number of words of 32 bits. -/
abbrev wordCount : Nat := UInt32.size

/-- The number of leading zero bits of a positive number in 32 bits. -/
def leadingZeros (n : Nat) : Nat := 31 - Nat.log2 n

/-- The largest low half that is accepted. -/
def bound (n : Nat) : Nat := (n <<< leadingZeros n) - 1

/-- Whether a word is accepted for a choice among `n`. -/
def accepts (n : Nat) (word : UInt32) : Bool :=
  decide (word.toNat * n % wordCount ≤ bound n)

/-- The index an accepted word gives. -/
def index (n : Nat) (word : UInt32) : Nat := word.toNat * n / wordCount

/-- Draws words until one is accepted. -/
def drawFrom (n : Nat) : List UInt32 → Nat → Nat × WordSource
  | [], drawn => (0, ⟨[], drawn + 1⟩)
  | word :: rest, drawn =>
    if accepts n word then (index n word, ⟨rest, drawn + 1⟩) else drawFrom n rest (drawn + 1)

/-- An index below `n`, for a positive `n`, and the source after the draw. -/
def draw (s : WordSource) (n : Nat) : Nat × WordSource := drawFrom n s.words s.drawn

end WordSource

namespace TreeSelection

/-- Adds a tree to a list unless a tree of the same key is in it. -/
def insertNew (seen : List TreeAccounts) (t : TreeAccounts) : List TreeAccounts :=
  if seen.any (·.tree == t.tree) then seen else seen ++ [t]

/-- The active trees of the chains that start and end with the wanted kind, in order and each
tree once. -/
def candidates (chains : List TreeChain) (kind : TreeKind) : List TreeAccounts :=
  let wanted := chains.filter fun c => c.first.kind == kind && c.active.kind == kind
  (wanted.map (·.active)).foldl insertNew []

/-- Chooses one of the candidates.  A kind that holds no account hashes, or one without
candidates, is refused before any word is drawn. -/
def select (chains : List TreeChain) (kind : TreeKind) (source : WordSource) :
    Except Error TreeAccounts × WordSource :=
  if kind.isState then
    match candidates chains kind with
    | [] => (.error .noActiveTree, source)
    | t :: ts =>
      let (i, rest) := source.draw (ts.length + 1)
      (.ok ((t :: ts).getD i t), rest)
  else (.error .noActiveTree, source)

/-- Chooses one tree after another with one source; each choice comes with the words drawn so
far. -/
def selectMany (chains : List TreeChain) (kind : TreeKind) :
    Nat → WordSource → List (Except Error TreeAccounts × Nat)
  | 0, _ => []
  | times + 1, source =>
    let (result, rest) := select chains kind source
    (result, rest.drawn) :: selectMany chains kind times rest

end TreeSelection

end CompressedLedger
