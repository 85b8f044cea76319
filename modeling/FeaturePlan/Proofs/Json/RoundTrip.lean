import FeaturePlan.Json.Read
import FeaturePlan.Json.Write
import Mathlib.Tactic.IntervalCases

/-! # Written JSON is read back

Both written forms of a value consist of the same lexemes, the indented form with blanks between
them; and from these lexemes the value is put together again. -/

namespace FeaturePlan.Json

/-- What holds of values without parts, and of arrays and objects if it holds of their parts, holds
of all values. -/
@[induction_eliminator]
theorem induction {motive : Json → Prop} (null : motive null) (bool : ∀ b, motive (bool b))
    (string : ∀ s, motive (string s))
    (array : ∀ items, (∀ j ∈ items, motive j) → motive (array items))
    (object : ∀ members, (∀ m ∈ members, motive m.2) → motive (object members)) :
    ∀ j, motive j :=
  @Json.rec motive (fun items => ∀ j ∈ items, motive j) (fun members => ∀ m ∈ members, motive m.2)
    (fun m => motive m.2) null bool string array object
    (fun _ hm => absurd hm List.not_mem_nil)
    (fun _ _ hj hitems => List.forall_mem_cons.mpr ⟨hj, hitems⟩)
    (fun _ hm => absurd hm List.not_mem_nil)
    (fun _ _ hm hmembers => List.forall_mem_cons.mpr ⟨hm, hmembers⟩)
    (fun _ _ hj => hj)

/-! ## Strings -/

namespace Lexing

/-- Where the reading stands after characters that complete no lexeme. -/
def through? : Lexing → List Char → Option Lexing
  | l, [] => some l
  | l, c :: cs =>
    match l.step? c with
    | some ([], l) => through? l cs
    | _ => none

end Lexing

theorem lexemesFrom?_cons {l l' : Lexing} {c : Char} {found : List Lexeme}
    (h : l.step? c = some (found, l')) (rest : List Char) :
    lexemesFrom? l (c :: rest) = (lexemesFrom? l' rest).map (found ++ ·) := by
  rw [lexemesFrom?, h]
  cases hrest : lexemesFrom? l' rest <;> simp [hrest]

theorem lexemesFrom?_of_through? {l l' : Lexing} {cs : List Char} (h : l.through? cs = some l')
    (rest : List Char) : lexemesFrom? l (cs ++ rest) = lexemesFrom? l' rest := by
  induction cs generalizing l with
  | nil => rw [List.nil_append, Option.some.inj h]
  | cons c cs ih =>
      rw [Lexing.through?] at h
      split at h
      · rename_i next hstep
        rw [List.cons_append, lexemesFrom?_cons hstep, ih h]
        simp
      · cases h

/-- A code of a control character goes through to that character. -/
theorem through?_code (read : List Char) {n : Nat} (h : n < 32) :
    (Lexing.string read).through?
        (if n < 16 then ['\\', 'u', '0', '0', '0'] ++ Text.hex n
          else ['\\', 'u', '0', '0'] ++ Text.hex n) =
      some (.string (.ofNat n :: read)) := by
  interval_cases n <;> rfl

theorem through?_stringChar (read : List Char) (c : Char) :
    (Lexing.string read).through? (stringChar c) = some (.string (c :: read)) := by
  by_cases hquote : c = '"'
  · subst hquote
    rfl
  by_cases hslash : c = '\\'
  · subst hslash
    rfl
  by_cases hletter : c ∈ ['\x08', '\x0c', '\n', '\r', '\t']
  · simp only [List.mem_cons, List.not_mem_nil, or_false] at hletter
    rcases hletter with rfl | rfl | rfl | rfl | rfl <;> rfl
  simp only [List.mem_cons, List.not_mem_nil, or_false, not_or] at hletter
  obtain ⟨h₁, h₂, h₃, h₄, h₅⟩ := hletter
  simp only [stringChar, hquote, hslash, h₁, h₂, h₃, h₄, h₅, if_false]
  by_cases hcode : c.toNat < 32
  · have hthrough := through?_code read hcode
    rw [Char.ofNat_toNat] at hthrough
    simpa only [hcode, if_true] using hthrough
  · have hsmall : ¬c.toNat < 16 := by omega
    simp [hcode, hsmall, Lexing.through?, Lexing.step?, hquote, hslash]

theorem through?_append {l l' : Lexing} {cs ds : List Char} (h : l.through? cs = some l') :
    l.through? (cs ++ ds) = l'.through? ds := by
  induction cs generalizing l with
  | nil => rw [List.nil_append, Option.some.inj h]
  | cons c cs ih =>
      rw [Lexing.through?] at h
      split at h
      · rename_i next hstep
        rw [List.cons_append, Lexing.through?, hstep]
        exact ih h
      · cases h

theorem through?_flatMap_stringChar (read cs : List Char) :
    (Lexing.string read).through? (cs.flatMap stringChar) =
      some (.string (cs.reverse ++ read)) := by
  induction cs generalizing read with
  | nil => rfl
  | cons c cs ih =>
      rw [List.flatMap_cons, through?_append (through?_stringChar read c), ih, List.reverse_cons,
        List.append_assoc]
      rfl

/-! ## Lexemes -/

/-- Between lexemes, the text is read as the lexemes, whatever comes behind it. -/
def Lexes (text : List Char) (ls : List Lexeme) : Prop :=
  ∀ rest, lexemesFrom? .between (text ++ rest) = (lexemesFrom? .between rest).map (ls ++ ·)

theorem lexes_nil : Lexes [] [] := by
  intro rest
  simp

theorem Lexes.append {text more : List Char} {ls ms : List Lexeme} (h : Lexes text ls)
    (h' : Lexes more ms) : Lexes (text ++ more) (ls ++ ms) := by
  intro rest
  rw [List.append_assoc, h, h', Option.map_map]
  simp [Function.comp_def]

theorem Lexes.eq {text : List Char} {ls : List Lexeme} (h : Lexes text ls) :
    lexemesFrom? .between text = some ls := by
  have hall := h []
  rw [List.append_nil] at hall
  rw [hall]
  simp [lexemesFrom?]

theorem lexes_of_through? (cs : List Char) {c : Char} {l : Lexeme} {before : Lexing}
    (h : Lexing.between.through? cs = some before) (hc : before.step? c = some ([l], .between)) :
    Lexes (cs ++ [c]) [l] := by
  intro rest
  rw [List.append_assoc, lexemesFrom?_of_through? h]
  exact lexemesFrom?_cons hc rest

theorem lexes_mark {c : Char} {l : Lexeme} (h : Lexing.begin? c = some ([l], .between)) :
    Lexes [c] [l] :=
  lexes_of_through? [] rfl h

theorem lexes_comma : Lexes [','] [.comma] :=
  lexes_mark rfl

theorem lexes_colon : Lexes [':'] [.colon] :=
  lexes_mark rfl

theorem lexes_blank {c : Char} (h : isSpace c) : Lexes [c] [] := by
  have hstep : Lexing.between.step? c = some ([], .between) := by
    simp [Lexing.step?, Lexing.begin?, h]
  exact lexemesFrom?_cons hstep

theorem lexes_blanks {cs : List Char} (h : ∀ c ∈ cs, isSpace c) : Lexes cs [] := by
  induction cs with
  | nil => exact lexes_nil
  | cons c cs ih =>
      rw [List.forall_mem_cons] at h
      exact (lexes_blank h.1).append (ih h.2)

theorem lexes_string (s : String) : Lexes (stringChars s) [.string s] := by
  have hquote : Lexing.between.through? ['"'] = some (.string []) := rfl
  have hthrough : Lexing.between.through? ('"' :: s.toList.flatMap stringChar) =
      some (.string (s.toList.reverse ++ [])) := by
    rw [← List.singleton_append, through?_append hquote, through?_flatMap_stringChar]
  refine lexes_of_through? _ hthrough ?_
  simp [Lexing.step?]

theorem lexes_null : Lexes "null".toList [.null] :=
  lexes_of_through? ['n', 'u', 'l'] rfl rfl

theorem lexes_bool (b : Bool) : Lexes (if b then "true" else "false").toList [.bool b] := by
  cases b with
  | true => exact lexes_of_through? ['t', 'r', 'u'] rfl rfl
  | false => exact lexes_of_through? ['f', 'a', 'l', 's'] rfl rfl

/-! ## The lexemes of a value -/

mutual

def lexemes : Json → List Lexeme
  | null => [.null]
  | bool b => [.bool b]
  | string s => [.string s]
  | array items => .openArray :: itemLexemes items ++ [.closeArray]
  | object members => .openObject :: memberLexemes members ++ [.closeObject]

def itemLexemes : List Json → List Lexeme
  | [] => []
  | [j] => lexemes j
  | j :: js => lexemes j ++ .comma :: itemLexemes js

def memberLexemes : List (String × Json) → List Lexeme
  | [] => []
  | [(k, j)] => .string k :: .colon :: lexemes j
  | (k, j) :: ms => .string k :: .colon :: lexemes j ++ .comma :: memberLexemes ms

end

theorem lexes_compactItems {items : List Json}
    (h : ∀ j ∈ items, Lexes j.compactChars j.lexemes) :
    Lexes (compactItems items) (itemLexemes items) := by
  induction items with
  | nil => exact lexes_nil
  | cons j items ih =>
      rw [List.forall_mem_cons] at h
      cases items with
      | nil => exact h.1
      | cons j' items => exact h.1.append (lexes_comma.append (ih h.2))

theorem lexes_compactMembers {members : List (String × Json)}
    (h : ∀ m ∈ members, Lexes m.2.compactChars m.2.lexemes) :
    Lexes (compactMembers members) (memberLexemes members) := by
  induction members with
  | nil => exact lexes_nil
  | cons m members ih =>
      rw [List.forall_mem_cons] at h
      have hm := (lexes_string m.1).append (lexes_colon.append h.1)
      cases members with
      | nil => exact hm
      | cons m' members =>
          have hmore := hm.append (lexes_comma.append (ih h.2))
          simpa [compactMembers, memberLexemes] using hmore

/-- The form without blanks consists of the lexemes of the value. -/
theorem lexes_compactChars (j : Json) : Lexes j.compactChars j.lexemes := by
  induction j with
  | null => exact lexes_null
  | bool b => exact lexes_bool b
  | string s => exact lexes_string s
  | array items ih =>
      exact ((lexes_mark rfl).append (lexes_compactItems ih)).append (lexes_mark rfl)
  | object members ih =>
      exact ((lexes_mark rfl).append (lexes_compactMembers ih)).append (lexes_mark rfl)

theorem lexes_newLine (depth : Nat) : Lexes (newLine depth) [] := by
  refine lexes_blanks fun c hc => ?_
  rcases List.mem_cons.mp hc with rfl | hc
  · rfl
  · rw [List.eq_of_mem_replicate hc]
    rfl

theorem lexes_prettyItems (depth : Nat) {items : List Json}
    (h : ∀ j ∈ items, ∀ depth, Lexes (j.prettyChars depth) j.lexemes) :
    Lexes (prettyItems depth items) (itemLexemes items) := by
  induction items with
  | nil => exact lexes_nil
  | cons j items ih =>
      rw [List.forall_mem_cons] at h
      have hj := (lexes_newLine depth).append (h.1 depth)
      cases items with
      | nil => exact hj
      | cons j' items => exact hj.append (lexes_comma.append (ih h.2))

theorem lexes_prettyMembers (depth : Nat) {members : List (String × Json)}
    (h : ∀ m ∈ members, ∀ depth, Lexes (m.2.prettyChars depth) m.2.lexemes) :
    Lexes (prettyMembers depth members) (memberLexemes members) := by
  induction members with
  | nil => exact lexes_nil
  | cons m members ih =>
      rw [List.forall_mem_cons] at h
      have hblank : Lexes [' '] [] := lexes_blank rfl
      have hm := (lexes_newLine depth).append ((lexes_string m.1).append
        (lexes_colon.append (hblank.append (h.1 depth))))
      cases members with
      | nil => simpa [prettyMembers, memberLexemes] using hm
      | cons m' members =>
          have hmore := hm.append (lexes_comma.append (ih h.2))
          simpa [prettyMembers, memberLexemes] using hmore

theorem lexes_prettyChars (j : Json) (depth : Nat) : Lexes (j.prettyChars depth) j.lexemes := by
  induction j generalizing depth with
  | null => exact lexes_null
  | bool b => exact lexes_bool b
  | string s => exact lexes_string s
  | array items ih =>
      have hstart : Lexes ['['] [.openArray] := lexes_mark rfl
      have hend : Lexes [']'] [.closeArray] := lexes_mark rfl
      -- An empty array has no new line in it.
      cases items with
      | nil => exact hstart.append hend
      | cons j items =>
          have hitems := (lexes_prettyItems (depth + 1) ih).append (lexes_newLine depth)
          rw [List.append_nil] at hitems
          exact (hstart.append hitems).append hend
  | object members ih =>
      have hstart : Lexes ['\x7b'] [.openObject] := lexes_mark rfl
      have hend : Lexes ['\x7d'] [.closeObject] := lexes_mark rfl
      cases members with
      | nil => exact hstart.append hend
      | cons m members =>
          have hmembers := (lexes_prettyMembers (depth + 1) ih).append (lexes_newLine depth)
          rw [List.append_nil] at hmembers
          exact (hstart.append hmembers).append hend

/-! ## Reading lexemes -/

/-- Taking the lexemes leads from one place in a value to another, whatever comes behind them. -/
def Takes (frames : List Frame) (turn : Turn) (ls : List Lexeme) (frames' : List Frame)
    (turn' : Turn) : Prop :=
  ∀ rest, readFrom? frames turn (ls ++ rest) = readFrom? frames' turn' rest

section

variable {frames frames' frames'' : List Frame} {turn turn' turn'' : Turn}

theorem takes_single {l : Lexeme} (h : take? frames turn l = some (frames', turn')) :
    Takes frames turn [l] frames' turn' := by
  intro rest
  rw [List.singleton_append]
  cases frames <;> cases turn <;> simp [readFrom?, h]

theorem Takes.append {ls ms : List Lexeme} (h : Takes frames turn ls frames' turn')
    (h' : Takes frames' turn' ms frames'' turn'') :
    Takes frames turn (ls ++ ms) frames'' turn'' := by
  intro rest
  rw [List.append_assoc, h, h']

end

def Turn.IsStart (frames : List Frame) (turn : Turn) : Prop :=
  ∀ l, l ≠ .closeArray → take? frames turn l = startValue? frames l

theorem Turn.isStart_value (frames : List Frame) : IsStart frames .value := by
  intro l _
  cases l <;> rfl

theorem Turn.isStart_firstItem (frames : List Frame) : IsStart frames .firstItem := by
  intro l hl
  cases l with
  | closeArray => exact absurd rfl hl
  | _ => rcases frames with _ | ⟨_ | _, _⟩ <;> rfl

/-- Items that are still to come, and the end of the array that holds those already read. -/
theorem takes_items {frames : List Frame} {items : List Json} (hne : items ≠ [])
    (h : ∀ j ∈ items, ∀ frames turn, Turn.IsStart frames turn →
      Takes frames turn j.lexemes frames (.after j))
    (before : List Json) {turn : Turn} (hstart : turn.IsStart (.array before :: frames)) :
    Takes (.array before :: frames) turn (itemLexemes items ++ [.closeArray]) frames
      (.after (.array (before ++ items))) := by
  -- With each comma, one more item is among those already read.
  induction items generalizing before turn with
  | nil => exact absurd rfl hne
  | cons j items ih =>
      rw [List.forall_mem_cons] at h
      have hj := h.1 _ _ hstart
      cases items with
      | nil => exact hj.append (takes_single rfl)
      | cons j' items =>
          have hcomma : Takes (.array before :: frames) (.after j) [.comma]
              (.array (before ++ [j]) :: frames) .value := takes_single rfl
          have hrest := ih (List.cons_ne_nil _ _) h.2 (before ++ [j]) (Turn.isStart_value _)
          have hall := hj.append (hcomma.append hrest)
          simpa [itemLexemes] using hall

/-- Members that are still to come, and the end of the object that holds those already read. -/
theorem takes_members {frames : List Frame} {members : List (String × Json)} (hne : members ≠ [])
    (h : ∀ m ∈ members, ∀ frames turn, Turn.IsStart frames turn →
      Takes frames turn m.2.lexemes frames (.after m.2))
    (before : List (String × Json)) {turn : Turn}
    (hkey : ∀ key, take? frames turn (.string key) = some (frames, .colon before key)) :
    Takes frames turn (memberLexemes members ++ [.closeObject]) frames
      (.after (.object (before ++ members))) := by
  induction members generalizing before turn with
  | nil => exact absurd rfl hne
  | cons m members ih =>
      rw [List.forall_mem_cons] at h
      have hcolon : Takes frames (.colon before m.1) [.colon] (.object before m.1 :: frames)
          .value := takes_single (by cases frames <;> rfl)
      have hm := (takes_single (hkey m.1)).append
        (hcolon.append (h.1 _ _ (Turn.isStart_value _)))
      cases members with
      | nil => exact hm.append (takes_single rfl)
      | cons m' members =>
          have hcomma : Takes (.object before m.1 :: frames) (.after m.2) [.comma] frames
              (.key (before ++ [m])) := takes_single rfl
          have hkey' : ∀ key, take? frames (.key (before ++ [m])) (.string key) =
              some (frames, .colon (before ++ [m]) key) := fun key => by cases frames <;> rfl
          have hrest := ih (List.cons_ne_nil _ _) h.2 (before ++ [m]) hkey'
          have hall := hm.append (hcomma.append hrest)
          simpa [memberLexemes] using hall

theorem takes_lexemes (j : Json) (frames : List Frame) (turn : Turn)
    (hstart : turn.IsStart frames) : Takes frames turn j.lexemes frames (.after j) := by
  induction j generalizing frames turn with
  | null | bool b | string s => exact takes_single (hstart _ (by simp))
  | array items ih =>
      have hopen := takes_single (hstart .openArray (by simp))
      cases items with
      | nil => exact hopen.append (takes_single rfl)
      | cons j items =>
          exact hopen.append
            (takes_items (List.cons_ne_nil _ _) ih [] (Turn.isStart_firstItem _))
  | object members ih =>
      have hopen := takes_single (hstart .openObject (by simp))
      cases members with
      | nil => exact hopen.append (takes_single (by cases frames <;> rfl))
      | cons m members =>
          have hkey : ∀ key, take? frames .firstKey (.string key) =
              some (frames, .colon [] key) := fun key => by cases frames <;> rfl
          exact hopen.append (takes_members (List.cons_ne_nil _ _) ih [] hkey)

/-! ## Texts -/

/-- A text that consists of the lexemes of a value is read as the value. -/
theorem read?_of_lexes {text : String} {j : Json} (h : Lexes text.toList j.lexemes) :
    read? text = some j := by
  have hread := takes_lexemes j [] .value (Turn.isStart_value []) []
  rw [List.append_nil] at hread
  rw [read?, h.eq]
  exact hread

theorem read?_compact (j : Json) : read? j.compact = some j :=
  read?_of_lexes (by rw [compact, String.toList_ofList]; exact lexes_compactChars j)

theorem read?_pretty (j : Json) : read? j.pretty = some j :=
  read?_of_lexes (by rw [pretty, String.toList_ofList]; exact lexes_prettyChars j 0)

theorem compact_inj {i j : Json} : i.compact = j.compact ↔ i = j := by
  refine ⟨fun h => ?_, fun h => h ▸ rfl⟩
  have hi := read?_compact i
  rw [h, read?_compact] at hi
  exact (Option.some.inj hi).symm

/-! ## Writing piece by piece -/

theorem flatMap_stringPieces (s : String) :
    (stringPieces s).flatMap String.toList = stringChars s := by
  simp [stringPieces, stringChars, List.flatMap_map]

theorem flatMap_itemPieces {items : List Json}
    (h : ∀ j ∈ items, j.pieces.flatMap String.toList = j.compactChars) :
    (itemPieces items).flatMap String.toList = compactItems items := by
  induction items with
  | nil => rfl
  | cons j items ih =>
      rw [List.forall_mem_cons] at h
      cases items with
      | nil => exact h.1
      | cons j' items => simp [itemPieces, compactItems, h.1, ih h.2]

theorem flatMap_memberPieces {members : List (String × Json)}
    (h : ∀ m ∈ members, m.2.pieces.flatMap String.toList = m.2.compactChars) :
    (memberPieces members).flatMap String.toList = compactMembers members := by
  induction members with
  | nil => rfl
  | cons m members ih =>
      rw [List.forall_mem_cons] at h
      cases members with
      | nil => simp [memberPieces, compactMembers, flatMap_stringPieces, h.1]
      | cons m' members =>
          simp [memberPieces, compactMembers, flatMap_stringPieces, h.1, ih h.2]

theorem flatMap_pieces (j : Json) : j.pieces.flatMap String.toList = j.compactChars := by
  induction j with
  | null => rfl
  | bool b => cases b <;> rfl
  | string s => exact flatMap_stringPieces s
  | array items ih => simp [pieces, compactChars, flatMap_itemPieces ih]
  | object members ih => simp [pieces, compactChars, flatMap_memberPieces ih]

theorem foldl_append_toUTF8 (pieces : List String) (out : ByteArray) :
    pieces.foldl (fun out piece => out ++ piece.toUTF8) out =
      out ++ (String.ofList (pieces.flatMap String.toList)).toUTF8 := by
  induction pieces generalizing out with
  | nil => simp
  | cons piece pieces ih =>
      rw [List.foldl_cons, ih, ByteArray.append_assoc, List.flatMap_cons, String.ofList_append,
        String.ofList_toList]
      simp

/-- Written are the bytes of the form without blanks, behind those that were there. -/
theorem write_eq (out : ByteArray) (j : Json) : j.write out = out ++ j.compact.toUTF8 := by
  rw [write, foldl_append_toUTF8, flatMap_pieces, compact]

end FeaturePlan.Json
