import FeaturePlan.Pattern

/-! Finding a match. A text is read once, one character after the other, and all matches that have
begun are followed at the same time: the progress of a pattern says where in it they stand. -/

namespace FeaturePlan.Pattern

/-- How many more rounds of a repetition there have to be, and how many there may be. -/
structure Bounds where
  least : Nat
  most : Option Nat
deriving DecidableEq, Repr, Inhabited

namespace Bounds

/-- The bounds after one more round, if there may be one. When the repeated part matches the empty
text, such matches can make up for all rounds that there have to be. -/
def next? (b : Bounds) (isFree : Bool) : Option Bounds :=
  match b.most with
  | none => some ⟨if isFree then 0 else b.least - 1, none⟩
  | some 0 => none
  | some (most + 1) => some ⟨if isFree then 0 else b.least - 1, some most⟩

/-- More rounds may follow than with other bounds of the same repetition, or as many, and more of
them have to. -/
def isBefore (b c : Bounds) : Bool :=
  match b.most, c.most with
  | some m, some n => n < m || (m == n && c.least < b.least)
  | _, _ => c.least < b.least

end Bounds

inductive Progress where
  /-- There are none. -/
  | idle
  /-- What they still have to find of a text. -/
  | within (rests : List (List Char))
  /-- They have found a character of a set. -/
  | found
  /-- They stand in the first of two patterns, or in the second. -/
  | both (x y : Progress)
  /-- They stand in rounds of a repetition; the bounds are those after the round. -/
  | rounds (rs : List (Bounds × Progress))
deriving Inhabited

namespace Progress

def isIdle : Progress → Bool
  | idle => true
  | _ => false

def ofBoth : Progress → Progress → Progress
  | idle, idle => idle
  | x, y => both x y

def ofRests : List (List Char) → Progress
  | [] => idle
  | rests => within rests

def ofRounds (rs : List (Bounds × Progress)) : Progress :=
  match rs.filter fun r => !r.2.isIdle with
  | [] => idle
  | rs => rounds rs

def rests : Progress → List (List Char)
  | within rests => rests
  | _ => []

def first : Progress → Progress
  | both x _ => x
  | _ => idle

def second : Progress → Progress
  | both _ y => y
  | _ => idle

def roundList : Progress → List (Bounds × Progress)
  | rounds rs => rs
  | _ => []

end Progress

def matchesEmpty (i : Place) : Pattern → Bool
  | empty => true
  | text cs => cs.isEmpty
  | set _ => false
  | anchor a => a.holds i
  | group _ p => p.matchesEmpty i
  | repeated p least _ => least == 0 || p.matchesEmpty i
  | seq p q => p.matchesEmpty i && q.matchesEmpty i
  | alt p q => p.matchesEmpty i || q.matchesEmpty i

def isDone (i : Place) : Pattern → Progress → Bool
  | _, .idle => false
  | empty, _ => false
  | text _, x => x.rests.any List.isEmpty
  | set _, _ => true
  | anchor _, _ => false
  | group _ p, x => p.isDone i x
  | repeated p _ _, x =>
    x.roundList.any fun (b, y) => (b.least == 0 || p.matchesEmpty i) && p.isDone i y
  | seq p q, x => q.isDone i x.second || (q.matchesEmpty i && p.isDone i x.first)
  | alt p q, x => p.isDone i x.first || q.isDone i x.second

/-- Takes a step in all rounds, and in those that are started now. Both lists are in order. -/
def stepRounds (step : Bool → Progress → Progress) :
    (fuel : Nat) → List (Bounds × Progress) → (started : List Bounds) → List (Bounds × Progress)
  | 0, _, _ => []
  | _ + 1, [], [] => []
  | fuel + 1, [], c :: cs =>
    (c, step true .idle) :: stepRounds step fuel [] (cs.dropWhile (· == c))
  | fuel + 1, (b, x) :: rs, [] => (b, step false x) :: stepRounds step fuel rs []
  | fuel + 1, (b, x) :: rs, c :: cs =>
    if b = c then (b, step true x) :: stepRounds step fuel rs (cs.dropWhile (· == c))
    else if b.isBefore c then (b, step false x) :: stepRounds step fuel rs (c :: cs)
    else (c, step true .idle) :: stepRounds step fuel ((b, x) :: rs) (cs.dropWhile (· == c))

/-- The progress once the character after a place has been read. `begins` says that matches begin
at the place, besides those that have begun before it. -/
def advance (i : Place) (c : Char) : Pattern → (begins : Bool) → Progress → Progress
  | _, false, .idle => .idle
  | empty, _, _ => .idle
  | text cs, begins, x =>
    .ofRests ((if begins then cs :: x.rests else x.rests).filterMap fun rest =>
      match rest with
      | [] => none
      | d :: ds => if d = c then some ds else none)
  | set s, begins, _ => if begins && s.contains c then .found else .idle
  | anchor _, _, _ => .idle
  | group _ p, begins, x => p.advance i c begins x
  | repeated p least most, begins, x =>
    let isFree := p.matchesEmpty i
    let first := if begins then (Bounds.mk least most).next? isFree else none
    let later := x.roundList.filterMap fun (b, y) =>
      if p.isDone i y then b.next? isFree else none
    .ofRounds (stepRounds (p.advance i c) (x.roundList.length + later.length + 2) x.roundList
      (first.toList ++ later))
  | seq p q, begins, x =>
    .ofBoth (p.advance i c begins x.first)
      (q.advance i c ((begins && p.matchesEmpty i) || p.isDone i x.first) x.second)
  | alt p q, begins, x => .ofBoth (p.advance i c begins x.first) (q.advance i c begins x.second)

/-- Some match has its end in the text that is left, whether it has begun already or begins
there. -/
def search (p : Pattern) (before : Option Char) (x : Progress) : List Char → Bool
  | [] =>
    let i : Place := ⟨before, none⟩
    p.matchesEmpty i || p.isDone i x
  | c :: cs =>
    let i : Place := ⟨before, some c⟩
    p.matchesEmpty i || p.isDone i x || p.search (some c) (p.advance i c true x) cs

def occursIn (p : Pattern) (text : String) : Bool :=
  p.search none .idle text.toList

end FeaturePlan.Pattern
