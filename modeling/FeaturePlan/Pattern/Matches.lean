import FeaturePlan.Pattern

/-! Which part of a text a pattern matches, said without a way to find it. A place in the text is
given by the number of characters before it. -/

namespace FeaturePlan.Pattern

def Place.ofIndex (text : List Char) (i : Nat) : Place :=
  ⟨if i = 0 then none else text[i - 1]?, text[i]?⟩

/-- The pattern matches the part of a text from one place to another. -/
inductive Matches (text : List Char) : Pattern → Nat → Nat → Prop where
  | empty (i) : Matches text .empty i i
  | text {cs i} (h : (text.drop i).take cs.length = cs) : Matches text (.text cs) i (i + cs.length)
  | set {s c i} (hc : text[i]? = some c) (hs : s.contains c) : Matches text (.set s) i (i + 1)
  | anchor {a i} (h : a.holds (.ofIndex text i)) : Matches text (.anchor a) i i
  | group {n p i j} : Matches text p i j → Matches text (.group n p) i j
  | done {p most} (i) : Matches text (.repeated p 0 most) i i
  | round {p least i j k} : Matches text p i j → Matches text (.repeated p (least - 1) none) j k →
      Matches text (.repeated p least none) i k
  | limitedRound {p least most i j k} : Matches text p i j →
      Matches text (.repeated p (least - 1) (some most)) j k →
      Matches text (.repeated p least (some (most + 1))) i k
  | seq {p q i j k} : Matches text p i j → Matches text q j k → Matches text (.seq p q) i k
  | left {p q i j} : Matches text p i j → Matches text (.alt p q) i j
  | right {p q i j} : Matches text q i j → Matches text (.alt p q) i j

end FeaturePlan.Pattern
