import Scribe.Proofs.Snippet.Weight

/-!
# Filling tabstops

Wherever a tabstop occurs it holds the default of its number. A default may hold other tabstops, which are filled
in their turn, but not those that are open around it. The walk through the tokens ends because what is ahead grows
lighter with each step.
-/

namespace Scribe

namespace Expansion

/-- Tokens in which each tabstop has its default. -/
structure Filled where
  tokens : List SnippetToken
  /-- In the order in which they open. -/
  occurrences : List Occurrence := []
  /-- For each occurrence, in the order in which they close, its tabstop and those still open around it. -/
  closings : List (Nat × List Nat) := []
  /-- No marker from here on is in use. -/
  nextMarker : Nat

namespace Walk

/-- All the tokens ahead are gone through. -/
def run (found : Dict Nat Placeholder) (transform : Transform → String → String) (w : Walk) : Walk :=
  match _h : w.step found transform with
  | none => w
  | some w' => w'.run found transform
termination_by w.weight found
decreasing_by exact weight_step _h

def filled (w : Walk) : Filled :=
  { tokens := w.passed.reverse, occurrences := w.occurrences.reverse, closings := w.closings.reverse,
    nextMarker := w.nextMarker }

end Walk

/-- Every tabstop gets its default wherever it occurs. -/
def instantiate (found : Dict Nat Placeholder) (transform : Transform → String → String)
    (tokens : List SnippetToken) : Filled :=
  ((Walk.start tokens).run found transform).filled

end Expansion

end Scribe
