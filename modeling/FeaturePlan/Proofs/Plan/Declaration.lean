import FeaturePlan.Proofs.Plan.Cascade
import FeaturePlan.Proofs.Text.Blank
import FeaturePlan.Proofs.Text.Words
import Mathlib.Data.List.Lex

/-! # Which declaration a comment makes

The rule for declarations lets a comment be divided in several ways, since hash signs and colons may
be part of a key or a value as well. Of these readings the first one counts: each part of the rule,
from the left, takes as many characters as the parts behind it allow. -/

namespace FeaturePlan

open Text

namespace Declaration

/-! ## Readings -/

/-- A key and a value, with a colon between them and perhaps blanks around it. -/
@[ext]
structure Entry where
  key : List Char
  beforeColon : List Char
  afterColon : List Char
  value : List Char
  isWord_key : IsWord key
  isBlank_beforeColon : ∀ c ∈ beforeColon, isBlank c = true
  isBlank_afterColon : ∀ c ∈ afterColon, isBlank c = true
  isWord_value : IsWord value

@[ext]
structure Marked extends Entry where
  hashes : Nat
  gap : List Char
  hashes_pos : 0 < hashes
  isBlank_gap : ∀ c ∈ gap, isBlank c = true

/-- One way to divide a comment as the rule for declarations has it. -/
@[ext]
structure Reading extends Marked where
  margin : List Char
  rest : List Char
  isBlank_margin : ∀ c ∈ margin, isBlank c = true
  isBlank_rest : ∀ c ∈ rest, isBlank c = true

namespace Entry

def text (e : Entry) : List Char :=
  e.key ++ (e.beforeColon ++ ':' :: (e.afterColon ++ e.value))

def IsLongest (e : Entry) : Prop :=
  ∀ e' : Entry, e'.text = e.text → e'.key.length ≤ e.key.length

end Entry

def Marked.text (m : Marked) : List Char :=
  List.replicate m.hashes '#' ++ (m.gap ++ m.toEntry.text)

namespace Reading

def text (r : Reading) : List Char :=
  r.margin ++ r.toMarked.text ++ r.rest

/-- The number of characters that each part of the rule takes, from the left. -/
def lengths (r : Reading) : List Nat :=
  [r.margin.length, r.hashes, r.gap.length, r.key.length, r.beforeColon.length,
    r.afterColon.length, r.value.length, r.rest.length]

/-- The first reading of a text. Where another one differs from it for the first time, the other one
takes less. -/
structure IsPreferred (r : Reading) (text : List Char) : Prop where
  text_eq : r.text = text
  first : ∀ r' : Reading, r'.text = text → r' ≠ r → List.Lex (· < ·) r'.lengths r.lengths

end Reading

/-! ## Entries -/

theorem isWord_iff {cs : List Char} : isWord cs = true ↔ IsWord cs := by
  rw [isWord, Bool.and_eq_true, List.all_eq_true]
  constructor
  · intro h
    exact ⟨by simpa using h.1, by simpa using h.2⟩
  · intro h
    exact ⟨by simpa using h.nonempty, by simpa using h.unbroken⟩

theorem startsVisibly_colon (rest : List Char) : startsVisibly (':' :: rest) :=
  ⟨':', rest, rfl, by decide⟩

section
variable {c : Char} {cs rest key value : List Char}

theorem valueAfter?_eq_some_iff : valueAfter? rest = some value ↔
    IsWord value ∧ ∃ beforeColon afterColon : List Char, (∀ c ∈ beforeColon, isBlank c = true) ∧
      (∀ c ∈ afterColon, isBlank c = true) ∧
      beforeColon ++ ':' :: (afterColon ++ value) = rest := by
  constructor
  · intro h
    obtain ⟨behind, hbehind, h⟩ := Option.bind_eq_some_iff.mp h
    have hcolon : trimStart rest = ':' :: behind := after?_eq_some_iff.mp hbehind
    obtain ⟨hword, hvalue⟩ := Option.ite_none_right_eq_some.mp h
    obtain rfl := Option.some.inj hvalue
    refine ⟨isWord_iff.mp hword, rest.takeWhile isBlank, behind.takeWhile isBlank,
      fun c hc => List.mem_takeWhile_imp hc, fun c hc => List.mem_takeWhile_imp hc, ?_⟩
    rw [takeWhile_append_trimStart, ← hcolon, takeWhile_append_trimStart]
  · rintro ⟨hword, beforeColon, afterColon, hbefore, hafter, rfl⟩
    have hvalue := trimStart_append hafter hword.startsVisibly
    rw [valueAfter?, trimStart_append hbefore (startsVisibly_colon _)]
    simp only [after?, if_true, Option.bind_eq_bind, Option.bind_some, hvalue, isWord_iff.mpr hword]

namespace Entry

theorem valueAfter?_eq (e : Entry) :
    valueAfter? (e.beforeColon ++ ':' :: (e.afterColon ++ e.value)) = some e.value :=
  valueAfter?_eq_some_iff.mpr
    ⟨e.isWord_value, _, _, e.isBlank_beforeColon, e.isBlank_afterColon, rfl⟩

/-- Either the first character of an entry is all of its key, or there is an entry behind it. -/
theorem key_eq_or_exists (e : Entry) (h : e.text = c :: cs) :
    e.key = [c] ∨ ∃ e' : Entry, e'.text = cs ∧ e.key = c :: e'.key := by
  obtain ⟨d, tail, hkey⟩ := List.exists_cons_of_ne_nil e.isWord_key.nonempty
  rw [text, hkey, List.cons_append] at h
  obtain ⟨rfl, htext⟩ := List.cons.inj h
  by_cases htail : tail = []
  · exact .inl (by rw [hkey, htail])
  · have hword : IsWord tail :=
      ⟨htail, fun c hc => e.isWord_key.unbroken c (hkey ▸ List.mem_cons_of_mem d hc)⟩
    exact .inr ⟨{ e with key := tail, isWord_key := hword }, htext, hkey⟩

end Entry

theorem entry?_cons_of_visible (hc : isBlank c = false) : entry? (c :: cs) =
    match entry? cs with
    | some (key, value) => some (c :: key, value)
    | none => (valueAfter? cs).map fun value => ([c], value) := by
  cases hentry : entry? cs <;> simp only [ entry?, hc, hentry, Bool.false_eq_true, if_false]

theorem isSome_entry?_append (hkey : IsWord key) (hrest : valueAfter? rest = some value) :
    ( entry? (key ++ rest)).isSome = true := by
  obtain ⟨hne, hvisible⟩ := hkey
  induction key with
  | nil => exact absurd rfl hne
  | cons c key ih =>
    obtain ⟨hc, hvisible⟩ := List.forall_mem_cons.mp hvisible
    rw [List.cons_append, entry?_cons_of_visible hc]
    cases hentry : entry? (key ++ rest) with
    | some entry => rfl
    | none =>
      by_cases hnil : key = []
      · subst hnil
        rw [List.nil_append, hrest]
        rfl
      · rw [hentry] at ih
        exact absurd (ih hnil hvisible) Bool.false_ne_true

theorem Entry.isFound (e : Entry) : ( entry? e.text).isSome = true :=
  isSome_entry?_append e.isWord_key e.valueAfter?_eq

theorem Entry.text_ne (h : entry? cs = none) (e : Entry) : e.text ≠ cs := by
  intro htext
  have hsome := e.isFound
  rw [htext, h] at hsome
  cases hsome

/-- An entry is known by its text and the length of its key. -/
theorem Entry.eq_of_length (e e' : Entry) (htext : e.text = e'.text)
    (hlength : e.key.length = e'.key.length) : e = e' := by
  obtain ⟨hkey, hbehind⟩ := List.append_inj htext hlength
  obtain ⟨hbefore, hcolon⟩ := blanks_append_inj e.isBlank_beforeColon e'.isBlank_beforeColon
    (startsVisibly_colon _) (startsVisibly_colon _) hbehind
  obtain ⟨hafter, hvalue⟩ := blanks_append_inj e.isBlank_afterColon e'.isBlank_afterColon
    e.isWord_value.startsVisibly e'.isWord_value.startsVisibly (List.cons.inj hcolon).2
  exact Entry.ext hkey hbefore hafter hvalue

theorem Entry.IsLongest.lt_or_eq {e e' : Entry} (h : e.IsLongest) (htext : e'.text = e.text) :
    e'.key.length < e.key.length ∨ e' = e :=
  (Nat.lt_or_eq_of_le (h e' htext)).imp_right (e'.eq_of_length e htext)

def Entry.cons (e : Entry) (c : Char) (hc : isBlank c = false) : Entry :=
  { e with key := c :: e.key, isWord_key := e.isWord_key.cons hc }

theorem Entry.IsLongest.cons {e : Entry} (h : e.IsLongest) (hc : isBlank c = false) :
    (e.cons c hc).IsLongest := by
  intro e' htext
  cases e'.key_eq_or_exists htext with
  | inl hfirst =>
    rw [hfirst]
    exact Nat.succ_le_succ (Nat.zero_le _)
  | inr hbehind =>
    obtain ⟨e'', htext', hkey⟩ := hbehind
    rw [hkey]
    exact Nat.succ_le_succ (h e'' htext')

/-- A key cannot be longer if there is no entry behind its first character. -/
theorem Entry.isLongest_of_none {e : Entry} (htext : e.text = c :: cs) (h : entry? cs = none) :
    e.IsLongest := by
  intro e' htext'
  cases e'.key_eq_or_exists (htext'.trans htext) with
  | inl hfirst =>
    rw [hfirst]
    exact e.isWord_key.length_pos
  | inr hbehind =>
    obtain ⟨e'', hbehind, -⟩ := hbehind
    exact absurd hbehind (Entry.text_ne h e'')

theorem exists_isLongest (h : entry? cs = some (key, value)) :
    ∃ e : Entry, e.text = cs ∧ e.key = key ∧ e.value = value ∧ e.IsLongest := by
  induction cs generalizing key value with
  | nil => cases h
  | cons c cs ih =>
    by_cases hc : isBlank c = true
    · rw [ entry?, if_pos hc] at h
      cases h
    · have hvisible := eq_false_of_ne_true hc
      rw [entry?_cons_of_visible hvisible] at h
      cases hentry : entry? cs with
      | some entry =>
        obtain ⟨e, htext, hkey, hvalue, hlongest⟩ := ih hentry
        rw [hentry] at h
        obtain ⟨rfl, rfl⟩ := Prod.mk.inj (Option.some.inj h)
        exact ⟨e.cons c hvisible, congrArg (c :: ·) htext, congrArg (c :: ·) hkey, hvalue,
          hlongest.cons hvisible⟩
      | none =>
        rw [hentry] at h
        obtain ⟨v, hvalue, heq⟩ := Option.map_eq_some_iff.mp h
        obtain ⟨rfl, rfl⟩ := Prod.mk.inj heq
        obtain ⟨hword, beforeColon, afterColon, hbefore, hafter, htext⟩ :=
          valueAfter?_eq_some_iff.mp hvalue
        let e : Entry :=
          ⟨[c], beforeColon, afterColon, v, isWord_singleton hvisible, hbefore, hafter, hword⟩
        have he : e.text = c :: cs := congrArg (c :: ·) htext
        exact ⟨e, he, rfl, rfl, Entry.isLongest_of_none he hentry⟩

/-! ## Hash signs -/

variable {n : Nat} {body : List Char}

theorem valueAfter?_hash (cs : List Char) : valueAfter? ('#' :: cs) = none := by
  have hhash : trimStart ('#' :: cs) = '#' :: cs := trimStart_of_startsVisibly ⟨'#', cs, rfl, rfl⟩
  rw [valueAfter?, hhash]
  rfl

/-- If one hash sign cannot begin a key, neither can several. -/
theorem entry?_replicate (h : entry? ('#' :: body) = none) (n : Nat) :
    entry? (List.replicate (n + 1) '#' ++ body) = none := by
  induction n with
  | zero => exact h
  | succ n ih =>
    rw [List.replicate_succ, List.cons_append, entry?_cons_of_visible rfl, ih]
    exact congrArg (Option.map _) (valueAfter?_hash _)

theorem exists_replicate_append (cs : List Char) :
    ∃ n body, cs = List.replicate n '#' ++ body ∧ body.head? ≠ some '#' := by
  induction cs with
  | nil => exact ⟨0, [], rfl, by simp⟩
  | cons c cs ih =>
    by_cases hc : c = '#'
    · obtain ⟨n, body, rfl, hbody⟩ := ih
      exact ⟨n + 1, body, by rw [hc, List.replicate_succ, List.cons_append], hbody⟩
    · exact ⟨0, c :: cs, rfl, by simpa using hc⟩

theorem afterHashes?_replicate (hbody : body.head? ≠ some '#') :
    afterHashes? (List.replicate n '#' ++ body) =
      if n = 0 then none
      else
        match entry? (trimStart body) with
        | some entry => some entry
        | none => if n = 1 then none else entry? ('#' :: body) := by
  have hmarks : ∀ c ∈ List.replicate n '#', (c == '#') = true := by simp
  have htake : body.takeWhile (· == '#') = [] := by
    cases body with
    | nil => rfl
    | cons c body => simpa using hbody
  have hdrop : body.dropWhile (· == '#') = body := by
    cases body with
    | nil => rfl
    | cons c body => simpa using hbody
  rw [afterHashes?, List.takeWhile_append_of_pos hmarks, List.dropWhile_append_of_pos hmarks,
    htake, hdrop]
  cases entry? (trimStart body) <;>
    simp only [List.append_nil, List.replicate_eq_nil_iff, List.length_replicate]

namespace Marked

/-- The hash signs in front of an entry are all that there are, or fewer of them, so that the key
begins with a hash sign. -/
theorem hashes_eq_or_lt (m : Marked) (h : m.text = List.replicate n '#' ++ body)
    (hbody : body.head? ≠ some '#') : m.hashes = n ∧ m.gap ++ m.toEntry.text = body ∨
      ∃ more, m.hashes + more + 1 = n ∧ m.gap = [] ∧
        m.toEntry.text = List.replicate (more + 1) '#' ++ body := by
  rw [text] at h
  rcases Nat.lt_trichotomy m.hashes n with hlt | heq | hgt
  · obtain ⟨more, rfl⟩ := Nat.exists_eq_add_of_lt hlt
    rw [Nat.add_assoc, List.replicate_add, List.append_assoc] at h
    have hbehind := List.append_cancel_left h
    refine .inr ⟨more, rfl, ?_⟩
    cases hgap : m.gap with
    | nil => exact ⟨rfl, by rwa [hgap] at hbehind⟩
    | cons c gap =>
      rw [hgap, List.replicate_succ] at hbehind
      obtain ⟨rfl, -⟩ := List.cons.inj hbehind
      exact absurd (m.isBlank_gap '#' (by rw [hgap]; exact List.mem_cons_self)) (by decide)
  · rw [heq] at h
    exact .inl ⟨heq, List.append_cancel_left h⟩
  · obtain ⟨more, hmore⟩ := Nat.exists_eq_add_of_lt hgt
    rw [hmore, Nat.add_assoc, List.replicate_add, List.append_assoc] at h
    rw [← List.append_cancel_left h, List.replicate_succ] at hbody
    exact absurd rfl hbody

theorem trimStart_gap (m : Marked) : trimStart (m.gap ++ m.toEntry.text) = m.toEntry.text :=
  trimStart_append m.isBlank_gap (m.isWord_key.startsVisibly.append _)

theorem isSome_afterHashes? (m : Marked) : (afterHashes? m.text).isSome = true := by
  obtain ⟨n, body, htext, hbody⟩ := exists_replicate_append m.text
  have hpos := m.hashes_pos
  have hsome := m.toEntry.isFound
  rw [htext, afterHashes?_replicate hbody]
  cases m.hashes_eq_or_lt htext hbody with
  | inl hall =>
    obtain ⟨hn, hgap⟩ := hall
    rw [← hgap, m.trimStart_gap, if_neg (by omega)]
    obtain ⟨entry, hentry⟩ := Option.isSome_iff_exists.mp hsome
    rw [hentry]
    rfl
  | inr hfewer =>
    obtain ⟨more, hn, -, hentry⟩ := hfewer
    rw [hentry] at hsome
    rw [if_neg (by omega)]
    cases entry? (trimStart body) with
    | some entry => rfl
    | none =>
      simp only [show n ≠ 1 by omega, if_false]
      by_contra hnone
      rw [Option.not_isSome_iff_eq_none] at hnone
      rw [entry?_replicate hnone more] at hsome
      cases hsome

/-- As many hash signs as possible are left out of the key, then it is as long as possible. -/
def IsFirst (m : Marked) : Prop :=
  ∀ m' : Marked, m'.text = m.text → m'.hashes < m.hashes ∨
    m'.hashes = m.hashes ∧ m'.gap = m.gap ∧
      (m'.key.length < m.key.length ∨ m'.toEntry = m.toEntry)

theorem isFirst_of_all {m : Marked} (htext : m.gap ++ m.toEntry.text = body)
    (hbody : body.head? ≠ some '#') (hlongest : m.toEntry.IsLongest) : m.IsFirst := by
  intro m' hm'
  have hall : m'.text = List.replicate m.hashes '#' ++ body := by rw [hm', text, htext]
  cases m'.hashes_eq_or_lt hall hbody with
  | inl hsame =>
    obtain ⟨heq, hgap⟩ := hsame
    have hparts := blanks_append_inj m'.isBlank_gap m.isBlank_gap
      (m'.isWord_key.startsVisibly.append _) (m.isWord_key.startsVisibly.append _)
      (hgap.trans htext.symm)
    exact .inr ⟨heq, hparts.1, hlongest.lt_or_eq hparts.2⟩
  | inr hfewer =>
    obtain ⟨more, hlt, -⟩ := hfewer
    exact .inl (by omega)

/-- The key begins with the last hash sign, as there is no entry behind it. -/
theorem isFirst_of_none {m : Marked} (hgap : m.gap = []) (htext : m.toEntry.text = '#' :: body)
    (hbody : body.head? ≠ some '#') (hnone : entry? (trimStart body) = none)
    (hlongest : m.toEntry.IsLongest) : m.IsFirst := by
  intro m' hm'
  have hmore : m'.text = List.replicate (m.hashes + 1) '#' ++ body := by
    rw [hm', text, hgap, htext, List.replicate_add, List.append_assoc]
    rfl
  cases m'.hashes_eq_or_lt hmore hbody with
  | inl hall =>
    obtain ⟨-, hbehind⟩ := hall
    rw [← hbehind, m'.trimStart_gap] at hnone
    exact absurd rfl (Entry.text_ne hnone m'.toEntry)
  | inr hfewer =>
    obtain ⟨more, hlt, hgap', htext'⟩ := hfewer
    cases more with
    | zero =>
      have hsame : m'.toEntry.text = m.toEntry.text := htext'.trans htext.symm
      exact .inr ⟨Nat.succ.inj hlt, hgap'.trans hgap.symm, hlongest.lt_or_eq hsame⟩
    | succ more => exact .inl (by omega)

end Marked

theorem exists_isFirst_of_afterHashes? (h : afterHashes? cs = some (key, value)) :
    ∃ m : Marked, m.text = cs ∧ m.key = key ∧ m.value = value ∧ m.IsFirst := by
  obtain ⟨n, body, rfl, hbody⟩ := exists_replicate_append cs
  rw [afterHashes?_replicate hbody] at h
  obtain ⟨hn, h⟩ := Option.ite_none_left_eq_some.mp h
  cases hentry : entry? (trimStart body) with
  | some entry =>
    rw [hentry] at h
    obtain rfl := Option.some.inj h
    obtain ⟨e, htext, hkey, hvalue, hlongest⟩ := exists_isLongest hentry
    let m : Marked := ⟨e, n, body.takeWhile isBlank, Nat.pos_of_ne_zero hn,
      fun c hc => List.mem_takeWhile_imp hc⟩
    have hgap : m.gap ++ e.text = body := by rw [htext, takeWhile_append_trimStart]
    exact ⟨m, congrArg (List.replicate n '#' ++ ·) hgap, hkey, hvalue,
      Marked.isFirst_of_all hgap hbody hlongest⟩
  | none =>
    rw [hentry] at h
    obtain ⟨hone, h⟩ := Option.ite_none_left_eq_some.mp h
    obtain ⟨e, htext, hkey, hvalue, hlongest⟩ := exists_isLongest h
    obtain ⟨k, rfl⟩ : ∃ k, n = k + 1 + 1 := ⟨n - 2, by omega⟩
    let m : Marked := ⟨e, k + 1, [], Nat.succ_pos k, List.forall_mem_nil _⟩
    have hm : m.text = List.replicate (k + 1 + 1) '#' ++ body := by
      rw [List.replicate_add (k + 1) 1, List.append_assoc]
      exact congrArg (List.replicate (k + 1) '#' ++ ·) htext
    exact ⟨m, hm, hkey, hvalue, Marked.isFirst_of_none rfl htext hbody hentry hlongest⟩

/-! ## Comments -/

theorem Marked.startsVisibly (m : Marked) : startsVisibly m.text := by
  obtain ⟨n, hn⟩ := Nat.exists_eq_add_of_lt m.hashes_pos
  rw [text, hn, Nat.zero_add, List.replicate_succ]
  exact ⟨'#', _, rfl, rfl⟩

theorem Marked.trim_text (m : Marked) : trim m.text = m.text := by
  obtain ⟨c, behind, hbehind, hc⟩ := m.startsVisibly
  have hfront : m.text = List.replicate m.hashes '#' ++
      (m.gap ++ (m.key ++ (m.beforeColon ++ ':' :: m.afterColon))) ++ m.value := by
    simp only [text, Entry.text, List.append_assoc, List.cons_append]
  rw [trim_eq_self_iff]
  constructor
  · intro d hd
    rw [hbehind] at hd
    exact Option.some.inj hd ▸ hc
  · intro d hd
    rw [hfront, List.getLast?_append_of_ne_nil _ m.isWord_value.nonempty] at hd
    exact m.isWord_value.unbroken d (List.mem_of_mem_getLast? hd)

namespace Reading

theorem trim_text (r : Reading) : trim r.text = r.toMarked.text :=
  trim_pad r.isBlank_margin r.isBlank_rest r.toMarked.trim_text

theorem isPreferred_of_isFirst (r : Reading) (h : r.toMarked.IsFirst) : r.IsPreferred r.text := by
  refine ⟨rfl, fun r' htext hne => ?_⟩
  have hmarked : r'.toMarked.text = r.toMarked.text := by rw [← trim_text, htext, trim_text]
  have hparts : r'.margin ++ (r.toMarked.text ++ r'.rest) =
      r.margin ++ (r.toMarked.text ++ r.rest) := by
    rw [← List.append_assoc, ← List.append_assoc, ← hmarked]
    exact htext.trans (by rw [hmarked, text])
  obtain ⟨hmargin, hbehind⟩ := blanks_append_inj r'.isBlank_margin r.isBlank_margin
    (r.toMarked.startsVisibly.append _) (r.toMarked.startsVisibly.append _) hparts
  rw [lengths, lengths, hmargin]
  rcases h r'.toMarked hmarked with hhashes | ⟨hhashes, hgap, hkey | hentry⟩
  · exact .cons (.rel hhashes)
  · rw [hhashes, hgap]
    exact .cons (.cons (.cons (.rel hkey)))
  · have hrest := List.append_cancel_left hbehind
    refine absurd (Reading.ext ?_ ?_ ?_ ?_ hhashes hgap hmargin hrest) hne
    · exact congrArg Entry.key hentry
    · exact congrArg Entry.beforeColon hentry
    · exact congrArg Entry.afterColon hentry
    · exact congrArg Entry.value hentry

theorem IsPreferred.unique {r r' : Reading} (h : r.IsPreferred cs) (h' : r'.IsPreferred cs) :
    r' = r := by
  by_contra hne
  exact asymm (h.first r' h'.text_eq hne) (h'.first r h.text_eq (Ne.symm hne))

end Reading

theorem exists_isPreferred_of_afterHashes? (h : afterHashes? (trim cs) = some (key, value)) :
    ∃ r : Reading, r.IsPreferred cs ∧ r.key = key ∧ r.value = value := by
  obtain ⟨m, htext, hkey, hvalue, hfirst⟩ := exists_isFirst_of_afterHashes? h
  obtain ⟨behind, hbehind, hcs⟩ := exists_trim_append cs
  let r : Reading :=
    ⟨m, cs.takeWhile isBlank, behind, fun c hc => List.mem_takeWhile_imp hc, hbehind⟩
  have hr : r.text = cs := (congrArg (cs.takeWhile isBlank ++ · ++ behind) htext).trans hcs.symm
  exact ⟨r, hr ▸ r.isPreferred_of_isFirst hfirst, hkey, hvalue⟩

/-- A comment declares what its first reading says, and nothing if there is no reading. -/
theorem ofComment?_eq_some_iff {comment key value : String} :
    ofComment? comment = some (key, value) ↔ ∃ r : Reading,
      r.IsPreferred comment.toList ∧ r.key = key.toList ∧ r.value = value.toList := by
  constructor
  · intro h
    obtain ⟨⟨k, v⟩, hafter, heq⟩ := Option.map_eq_some_iff.mp h
    obtain ⟨rfl, rfl⟩ := Prod.mk.inj heq
    rw [String.toList_ofList, String.toList_ofList]
    exact exists_isPreferred_of_afterHashes? hafter
  · rintro ⟨r, hr, hkey, hvalue⟩
    obtain ⟨⟨k, v⟩, hafter⟩ := Option.isSome_iff_exists.mp r.toMarked.isSome_afterHashes?
    rw [← r.trim_text, hr.text_eq] at hafter
    obtain ⟨r', hr', rfl, rfl⟩ := exists_isPreferred_of_afterHashes? hafter
    rw [ofComment?, hafter, hr.unique hr']
    simp only [Option.map_some, hkey, hvalue, String.ofList_toList]

/-! ## Written declarations -/

/-- A colon with a blank behind it ends the key, whatever colons come before it. -/
theorem entry?_written (hkey : IsWord key) (hvalue : IsWord value)
    (hcolon : value.head? ≠ some ':') :
    entry? (key ++ ':' :: ' ' :: value) = some (key, value) := by
  have hblank : ∀ c ∈ [' '], isBlank c = true := List.forall_mem_singleton.mpr rfl
  have hafter : valueAfter? (':' :: ' ' :: value) = some value :=
    valueAfter?_eq_some_iff.mpr ⟨hvalue, [], [' '], List.forall_mem_nil _, hblank, rfl⟩
  have hnone : entry? (':' :: ' ' :: value) = none := by
    have hno : valueAfter? (' ' :: value) = none := by
      refine Option.eq_none_iff_forall_ne_some.mpr fun v hv => ?_
      obtain ⟨-, before, after, hbefore, -, htext⟩ := valueAfter?_eq_some_iff.mp hv
      obtain ⟨-, hbegins⟩ := blanks_append_inj hbefore hblank (startsVisibly_colon _)
        hvalue.startsVisibly htext
      exact hcolon (hbegins ▸ rfl)
    rw [entry?_cons_of_visible rfl, hno]
    rfl
  obtain ⟨hne, hvisible⟩ := hkey
  induction key with
  | nil => exact absurd rfl hne
  | cons c key ih =>
    obtain ⟨hc, hvisible⟩ := List.forall_mem_cons.mp hvisible
    rw [List.cons_append, entry?_cons_of_visible hc]
    by_cases hnil : key = []
    · subst hnil
      rw [List.nil_append, hnone, hafter]
      rfl
    · rw [ih hnil hvisible]

end

/-- A declaration that is written with a colon and a blank between key and value declares that value
for that key, and nothing for any other key. Nothing else is asked of the key, and of the value that
it does not begin with a colon. -/
theorem written_comment_declares {comment : Comment} {indent : List Char} {n : Nat}
    {key value : String} (hindent : ∀ c ∈ indent, isBlank c = true) (hn : 0 < n)
    (hkey : IsWord key.toList) (hvalue : IsWord value.toList)
    (hcolon : value.toList.head? ≠ some ':')
    (hcomment : comment.text.toList =
      indent ++ List.replicate n '#' ++ ' ' :: key.toList ++ ':' :: ' ' :: value.toList) :
    (∃ r : Reading, r.IsPreferred comment.text.toList ∧ r.key = key.toList ∧
      r.value = value.toList) ∧
    ofComment? comment.text = some (key, value) ∧
    ∀ inherited : Properties, (inherited.declaredIn [comment]).get? key = some value ∧
      ∀ k, k ≠ key → (inherited.declaredIn [comment]).get? k = inherited.get? k := by
  have hblank : ∀ c ∈ [' '], isBlank c = true := List.forall_mem_singleton.mpr rfl
  let entry : Entry :=
    ⟨key.toList, [], [' '], value.toList, hkey, List.forall_mem_nil _, hblank, hvalue⟩
  let r : Reading := ⟨⟨entry, n, [' '], hn, hblank⟩, indent, [], hindent, List.forall_mem_nil _⟩
  have htrim : trim comment.text.toList = r.toMarked.text := by
    rw [← r.trim_text, hcomment]
    simp [r, entry, Reading.text, Marked.text, Entry.text]
  have hread : trimStart ([' '] ++ entry.text) = entry.text := r.toMarked.trimStart_gap
  have hafter : afterHashes? r.toMarked.text = some (key.toList, value.toList) := by
    have hentry : entry? entry.text = some (key.toList, value.toList) :=
      entry?_written hkey hvalue hcolon
    have hbody : ([' '] ++ entry.text).head? ≠ some '#' := by simp
    rw [Marked.text, afterHashes?_replicate hbody, if_neg (Nat.ne_of_gt hn), hread, hentry]
  have hdeclares : ofComment? comment.text = some (key, value) := by
    rw [ofComment?, htrim, hafter]
    simp only [Option.map_some, String.ofList_toList]
  refine ⟨ofComment?_eq_some_iff.mp hdeclares, hdeclares, fun inherited => ?_⟩
  have hinsert : inherited.declaredIn [comment] = inherited.insert key value := by
    simp only [Properties.declaredIn, List.foldl_cons, List.foldl_nil, hdeclares]
  rw [hinsert]
  refine ⟨?_, fun k hk => ?_⟩
  · rw [Properties.get?_insert, if_pos rfl]
  · rw [Properties.get?_insert, if_neg hk]

/-- The key begins with a hash sign and ends in a colon, and the value has both of them in it. -/
theorem written_comment_declares_signs :
    let comment : Comment := ⟨⟨1, 1⟩, "\t ## #a:b:: http://x#y"⟩
    let inherited := (Properties.empty.insert "#a:b:" "old").insert "a" "kept"
    ofComment? comment.text = some ("#a:b:", "http://x#y") ∧
      (inherited.declaredIn [comment]).get? "#a:b:" = some "http://x#y" ∧
      (inherited.declaredIn [comment]).get? "a" = some "kept" := by
  intro comment inherited
  have hkey : IsWord "#a:b:".toList := isWord_iff.mp rfl
  have hvalue : IsWord "http://x#y".toList := isWord_iff.mp rfl
  have hindent : ∀ c ∈ ['\t', ' '], isBlank c = true := List.all_eq_true.mp rfl
  have hcomment : comment.text.toList = ['\t', ' '] ++ List.replicate 2 '#' ++
      ' ' :: "#a:b:".toList ++ ':' :: ' ' :: "http://x#y".toList := by
    dsimp only [comment]
    rfl
  have hdeclares :=
    written_comment_declares hindent Nat.two_pos hkey hvalue (by decide) hcomment
  obtain ⟨hvalue, hothers⟩ := hdeclares.2.2 inherited
  exact ⟨hdeclares.2.1, hvalue, (hothers "a" (by decide)).trans rfl⟩

end Declaration
end FeaturePlan
