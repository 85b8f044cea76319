import FeaturePlan.Grammar.Event

/-! Derivations: the events that the productions of the grammar allow. The relation knows nothing
of the automaton; it nests rules by their productions only. -/

namespace FeaturePlan

/-- Everything but blank lines and comments counts in the grammar. -/
def Event.counts : Event → Bool
  | .token t => t.kind ≠ .empty && t.kind ≠ .comment
  | _ => true

/-- The events are derived from the production. A rule stands for an event that opens it, a
derivation of its own production, and an event that closes it. -/
inductive Production.Derives : Production → List Event → Prop where
  | line {kind : TokenKind} {t : Token} : t.kind = kind → Derives (.line kind) [.token t]
  | rule {r : Rule} {es : List Event} : Derives r.production es →
      Derives (.rule r) (.opened r :: es ++ [.closed r])
  | nothing : Derives .nothing []
  | seq {p q : Production} {es fs : List Event} : Derives p es → Derives q fs →
      Derives (.seq p q) (es ++ fs)
  | left {p q : Production} {es : List Event} : Derives p es → Derives (.either p q) es
  | right {p q : Production} {es : List Event} : Derives q es → Derives (.either p q) es
  | none {p : Production} : Derives (.many p) []
  | more {p : Production} {es fs : List Event} : Derives p es → Derives (.many p) fs →
      Derives (.many p) (es ++ fs)

def Event.IsDocument (events : List Event) : Prop :=
  Production.Derives (.rule .document) (events.filter Event.counts)

end FeaturePlan
