import FeaturePlan.Config
import FeaturePlan.Proofs.Text.Blank

/-! # Settings in normal form

Each setting is cleaned up in its own way when it is read. What is clean already is left as it is,
so that settings that have been read once can be written out and read again. -/

namespace FeaturePlan

/-! ## Values as they should be -/

/-- The text is not empty, and there are no blanks around it. -/
structure Config.IsVisible (text : String) : Prop where
  nonempty : text ≠ ""
  trimmed : Text.trimmed text = text

structure Config.IsTagName (tag : String) : Prop where
  nonempty : tag ≠ ""
  unbroken : ∀ c ∈ tag.toList, Text.isBlank c = false
  bare : tag.toList.head? ≠ some '@'

/-- But for the blanks around it, the text is the tag, behind any number of at signs. -/
def Config.Marks (text tag : String) : Prop :=
  IsTagName tag ∧ ∃ count, Text.trim text.toList = List.replicate count '@' ++ tag.toList

/-- The words for a truth value: digits, and words in lower case, in capitals, or with a capital
letter at the start. -/
def Config.truthWords : List String :=
  ["0", "1"] ++ ["false", "true", "no", "yes", "off", "on"].flatMap fun word =>
    [word, word.toUpper, word.capitalize]

/-- The words for a level. One level has two. -/
def LogLevel.words : List String :=
  ["trace", "debug", "info", "warn", "warning", "error"]

namespace Config

def Variable.Refuses (value : String) : Variable → Prop
  | logLevel => .ofList (value.toList.map Char.toLower) ∉ LogLevel.words
  | redefinitionEnabled => Text.trimmed value ∉ truthWords
  | definitionTag | implementationTag => ¬∃ tag, Marks value tag
  | stepMapProperty => ∀ c ∈ value.toList, Text.isBlank c
  | idTagPattern | tagFilter | defaultLanguage => False

/-- Settings that are left as they are when they are cleaned up. -/
structure IsNormal (c : Config) : Prop where
  definitionTag : IsTagName c.redefinition.definitionTag
  implementationTag : IsTagName c.redefinition.implementationTag
  stepMapProperty : IsVisible c.redefinition.stepMapProperty
  idTagPattern : ∀ pattern ∈ c.idTagPattern, IsVisible pattern
  tagFilter : ∀ filter ∈ c.tagFilter, IsVisible filter
  defaultLanguage : Text.trimmed c.defaultLanguage = c.defaultLanguage

/-! ## Reading single values -/

section

variable {text visible tag : String}

theorem trimmed_trimmed (text : String) : Text.trimmed (Text.trimmed text) = Text.trimmed text := by
  have htrim : Text.trim (Text.trim text.toList) = Text.trim text.toList :=
    Text.trim_eq_self_iff.mpr ⟨Text.head?_trim, Text.getLast?_trim⟩
  simp only [Text.trimmed, String.toList_ofList, htrim]

theorem trimmed_eq_empty_iff : Text.trimmed text = "" ↔ ∀ c ∈ text.toList, Text.isBlank c := by
  have hinvisible : Text.isInvisible text.toList ↔ Text.trimStart text.toList = [] :=
    Text.isInvisible_iff
  rw [Text.isInvisible, Text.trimStart, List.dropWhile_eq_nil_iff] at hinvisible
  rw [← hinvisible, ← String.toList_inj, Text.trimmed, String.toList_ofList]
  rfl

theorem visibleText?_eq_none_iff : visibleText? text = none ↔ Text.trimmed text = "" := by
  simp [visibleText?]

theorem isVisible_of_visibleText? (h : visibleText? text = some visible) : IsVisible visible := by
  rw [visibleText?, Option.ite_none_left_eq_some] at h
  obtain ⟨hne, hvisible⟩ := h
  obtain rfl := Option.some.inj hvisible
  exact ⟨hne, trimmed_trimmed text⟩

theorem IsVisible.visibleText? (h : IsVisible text) : visibleText? text = some text := by
  simp [Config.visibleText?, h.trimmed, h.nonempty]

theorem visibleText?_getD {setting : Option String} (h : ∀ text ∈ setting, IsVisible text) :
    visibleText? (setting.getD "") = setting := by
  cases setting with
  | none => rfl
  | some text => exact (h text rfl).visibleText?

theorem dropWhile_replicate_append (count : Nat) {name : List Char} (h : name.head? ≠ some '@') :
    (List.replicate count '@' ++ name).dropWhile (· == '@') = name := by
  rw [List.dropWhile_append_of_pos fun c hc => by simp [List.eq_of_mem_replicate hc]]
  cases name with
  | nil => rfl
  | cons c name => exact List.dropWhile_cons_of_neg (by simpa using h)

theorem tagName?_eq_some_iff : tagName? text = some tag ↔ Marks text tag := by
  simp only [tagName?, Option.ite_none_left_eq_some, Option.some.injEq]
  constructor
  · rintro ⟨hname, rfl⟩
    push Not at hname
    obtain ⟨hne, hblank⟩ := hname
    simp only [Bool.not_eq_true, List.any_eq_false] at hblank
    refine ⟨⟨?_, ?_, ?_⟩, ((Text.trim text.toList).takeWhile (· == '@')).length, ?_⟩
    · simpa using hne
    · simpa using hblank
    · intro hhead
      have hnot := List.head?_dropWhile_not (· == '@') (Text.trim text.toList)
      rw [String.toList_ofList] at hhead
      rw [hhead] at hnot
      simp at hnot
    · have hats : ∀ c ∈ (Text.trim text.toList).takeWhile (· == '@'), c = '@' := by
        intro c hc
        simpa using List.mem_takeWhile_imp hc
      rw [← List.eq_replicate_of_mem hats, String.toList_ofList,
        List.takeWhile_append_dropWhile]
  · rintro ⟨htag, count, htext⟩
    rw [htext, dropWhile_replicate_append count htag.bare, String.ofList_toList]
    refine ⟨?_, rfl⟩
    rw [not_or, Bool.not_eq_true, List.any_eq_false]
    exact ⟨by simpa using htag.nonempty, fun c hc => by simp [htag.unbroken c hc]⟩

theorem IsTagName.tagName? (h : IsTagName tag) : tagName? tag = some tag := by
  refine tagName?_eq_some_iff.mpr ⟨h, 0, Text.trim_eq_self_iff.mpr ⟨?_, ?_⟩⟩
  · exact fun c hc => h.unbroken c (List.mem_of_mem_head? hc)
  · exact fun c hc => h.unbroken c (List.mem_of_mem_getLast? hc)

theorem truth?_eq_none_iff : truth? text = none ↔ text ∉ truthWords := by
  have hwords : truthWords.Perm
      (["1", "true", "TRUE", "True", "yes", "YES", "Yes", "on", "ON", "On"] ++
        ["0", "false", "FALSE", "False", "no", "NO", "No", "off", "OFF", "Off"]) := by
    decide +kernel
  rw [hwords.mem_iff, List.mem_append, truth?]
  split
  · rename_i htrue
    exact iff_of_false (Option.some_ne_none _) (not_not_intro (.inl htrue))
  · rename_i hnotTrue
    split
    · rename_i hfalse
      exact iff_of_false (Option.some_ne_none _) (not_not_intro (.inr hfalse))
    · rename_i hnotFalse
      exact iff_of_true rfl (not_or_intro hnotTrue hnotFalse)

end

/-- A level is known by its words, in whatever case they are written. -/
theorem find?_level_eq_none_iff {word : String} :
    LogLevel.find? word = none ↔ .ofList (word.toList.map Char.toLower) ∉ LogLevel.words := by
  simp only [LogLevel.find?, LogLevel.words]
  grind

theorem find?_name (level : LogLevel) : LogLevel.find? level.name = some level := by
  cases level <;> decide

/-! ## Single variables -/

section

variable {c c' : Config} {v : Variable} {value : String}

/-- A value without a meaning is all that stops the reading of a variable. -/
theorem assign_error_iff : (∃ e, c.assign v value = .error e) ↔ v.Refuses value := by
  cases v with
  | logLevel =>
      rw [Variable.Refuses, ← find?_level_eq_none_iff]
      cases h : LogLevel.find? value <;> simp [assign, LogLevel.parse, h]
  | idTagPattern | tagFilter | defaultLanguage => simp [assign, Variable.Refuses]
  | redefinitionEnabled =>
      rw [Variable.Refuses, ← truth?_eq_none_iff]
      cases h : truth? (Text.trimmed value) <;> simp [assign, h]
  | definitionTag | implementationTag =>
      simp only [Variable.Refuses, ← tagName?_eq_some_iff]
      cases h : tagName? value <;> simp [assign, h]
  | stepMapProperty =>
      rw [Variable.Refuses, ← trimmed_eq_empty_iff, ← visibleText?_eq_none_iff]
      cases h : visibleText? value <;> simp [assign, h]

theorem IsNormal.assign (hc : c.IsNormal) (h : c.assign v value = .ok c') : c'.IsNormal := by
  have hvisible : ∀ text ∈ visibleText? value, IsVisible text :=
    fun _ => isVisible_of_visibleText?
  cases v with
  | logLevel =>
      cases hl : LogLevel.parse value with
      | error e => simp [Config.assign, hl, bind, Except.bind] at h
      | ok level =>
          simp only [Config.assign, hl] at h
          obtain rfl := Except.ok.inj h
          exact { hc with }
  | idTagPattern =>
      rw [Config.assign] at h
      generalize visibleText? value = pattern at h hvisible
      obtain rfl := Except.ok.inj h
      exact { hc with idTagPattern := hvisible }
  | tagFilter =>
      rw [Config.assign] at h
      generalize visibleText? value = filter at h hvisible
      obtain rfl := Except.ok.inj h
      exact { hc with tagFilter := hvisible }
  | defaultLanguage =>
      obtain rfl := Except.ok.inj h
      exact { hc with defaultLanguage := trimmed_trimmed value }
  | redefinitionEnabled =>
      simp only [Config.assign] at h
      split at h
      · obtain rfl := Except.ok.inj h
        exact { hc with }
      · cases h
  | definitionTag =>
      simp only [Config.assign] at h
      split at h
      · rename_i tag htag
        obtain rfl := Except.ok.inj h
        exact { hc with definitionTag := (tagName?_eq_some_iff.mp htag).1 }
      · cases h
  | implementationTag =>
      simp only [Config.assign] at h
      split at h
      · rename_i tag htag
        obtain rfl := Except.ok.inj h
        exact { hc with implementationTag := (tagName?_eq_some_iff.mp htag).1 }
      · cases h
  | stepMapProperty =>
      simp only [Config.assign] at h
      split at h
      · rename_i property hproperty
        obtain rfl := Except.ok.inj h
        exact { hc with stepMapProperty := isVisible_of_visibleText? hproperty }
      · cases h

end

/-! ## All variables -/

def valueOf (c : Config) : Variable → String
  | .logLevel => c.logLevel.name
  | .idTagPattern => c.idTagPattern.getD ""
  | .tagFilter => c.tagFilter.getD ""
  | .defaultLanguage => c.defaultLanguage
  | .redefinitionEnabled => if c.redefinition.enabled then "true" else "false"
  | .definitionTag => c.redefinition.definitionTag
  | .implementationTag => c.redefinition.implementationTag
  | .stepMapProperty => c.redefinition.stepMapProperty

def toLookup (c : Config) (name : String) : Option String :=
  (Variable.inOrder.find? fun v => v.name = name).map c.valueOf

theorem toLookup_name (c : Config) (v : Variable) : c.toLookup v.name = some (c.valueOf v) := by
  have hfind : (Variable.inOrder.find? fun w => w.name = v.name) = some v := by
    cases v <;> decide
  rw [toLookup, hfind]
  rfl

def withSetting (other : Config) (c : Config) : Variable → Config
  | .logLevel => { c with logLevel := other.logLevel }
  | .idTagPattern => { c with idTagPattern := other.idTagPattern }
  | .tagFilter => { c with tagFilter := other.tagFilter }
  | .defaultLanguage => { c with defaultLanguage := other.defaultLanguage }
  | .redefinitionEnabled => { c with redefinition.enabled := other.redefinition.enabled }
  | .definitionTag => { c with redefinition.definitionTag := other.redefinition.definitionTag }
  | .implementationTag =>
    { c with redefinition.implementationTag := other.redefinition.implementationTag }
  | .stepMapProperty =>
    { c with redefinition.stepMapProperty := other.redefinition.stepMapProperty }

theorem foldl_withSetting (c other : Config) :
    Variable.inOrder.foldl c.withSetting other = c := by
  simp only [Variable.inOrder, List.foldl_cons, List.foldl_nil, withSetting]

section

variable {c c' : Config} {lookup : String → Option String} {vs : List Variable}

theorem IsNormal.assign_valueOf (h : c.IsNormal) (other : Config) (v : Variable) :
    other.assign v (c.valueOf v) = .ok (c.withSetting other v) := by
  cases v with
  | logLevel => simp [Config.assign, valueOf, LogLevel.parse, find?_name, withSetting]
  | idTagPattern => simp only [Config.assign, valueOf, visibleText?_getD h.idTagPattern]; rfl
  | tagFilter => simp only [Config.assign, valueOf, visibleText?_getD h.tagFilter]; rfl
  | defaultLanguage => simp only [Config.assign, valueOf, h.defaultLanguage]; rfl
  | redefinitionEnabled =>
      have htruth : truth? (Text.trimmed (c.valueOf .redefinitionEnabled)) =
          some c.redefinition.enabled := by
        rw [valueOf]
        cases c.redefinition.enabled <;> decide
      simp only [Config.assign, htruth]
      rfl
  | definitionTag => simp only [Config.assign, valueOf, h.definitionTag.tagName?]; rfl
  | implementationTag => simp only [Config.assign, valueOf, h.implementationTag.tagName?]; rfl
  | stepMapProperty => simp only [Config.assign, valueOf, h.stepMapProperty.visibleText?]; rfl

/-- Variables that all have the values of the same settings bring these settings, one by one. -/
theorem IsNormal.assignAll_valueOf (h : c.IsNormal)
    (hlookup : ∀ v ∈ vs, lookup v.name = some (c.valueOf v)) (other : Config) :
    other.assignAll lookup vs = .ok (vs.foldl c.withSetting other) := by
  induction vs generalizing other with
  | nil => rfl
  | cons v vs ih =>
      rw [assignAll, hlookup v List.mem_cons_self]
      simp only [h.assign_valueOf other v]
      exact ih (fun w hw => hlookup w (List.mem_cons_of_mem v hw)) _

theorem assignAll_error_iff : (∃ e, c.assignAll lookup vs = .error e) ↔
    ∃ v ∈ vs, ∃ value, lookup v.name = some value ∧ v.Refuses value := by
  induction vs generalizing c with
  | nil => simp [assignAll]
  | cons v vs ih =>
      simp only [List.mem_cons, exists_eq_or_imp, assignAll]
      cases hvalue : lookup v.name with
      | none => simpa using ih
      | some value =>
          have hfirst : (∃ e, c.assign v value = .error e) ↔ v.Refuses value := assign_error_iff
          simp only [Option.some.injEq, exists_eq_left']
          cases hassign : c.assign v value with
          | error e =>
              have hrefuses : v.Refuses value := hfirst.mp ⟨e, hassign⟩
              exact iff_of_true ⟨e, rfl⟩ (.inl hrefuses)
          | ok c' =>
              have hnot : ¬v.Refuses value := by
                rw [← hfirst, hassign]
                simp
              rw [or_iff_right hnot]
              exact ih

theorem IsNormal.assignAll (hc : c.IsNormal) (h : c.assignAll lookup vs = .ok c') :
    c'.IsNormal := by
  induction vs generalizing c with
  | nil =>
      obtain rfl := Except.ok.inj h
      exact hc
  | cons v vs ih =>
      rw [Config.assignAll] at h
      cases hvalue : lookup v.name with
      | none =>
          rw [hvalue] at h
          exact ih hc h
      | some value =>
          simp only [hvalue] at h
          cases hassign : c.assign v value with
          | error e =>
              rw [hassign] at h
              cases h
          | ok next =>
              rw [hassign] at h
              exact ih (hc.assign hassign) h

theorem isNormal_standard : standard.IsNormal where
  definitionTag := (tagName?_eq_some_iff.mp (by decide : tagName? "definition" = some _)).1
  implementationTag :=
    (tagName?_eq_some_iff.mp (by decide : tagName? "implementation" = some _)).1
  stepMapProperty := ⟨by decide, by decide⟩
  idTagPattern := by
    rintro pattern ⟨⟩
    exact ⟨by decide, by decide⟩
  tagFilter := by rintro filter ⟨⟩
  defaultLanguage := by decide

end

/-! ## Reading and reading again -/

/-- Settings that have been read are in normal form, and what they are written as is read as the
same settings again. Reading fails only where a variable has a value without a meaning. -/
theorem ofLookup_normal_and_stable (lookup : String → Option String) :
    (∀ c, ofLookup lookup = .ok c → c.IsNormal ∧ ofLookup c.toLookup = .ok c) ∧
      ((∃ e, ofLookup lookup = .error e) ↔
        ∃ (v : Variable) (value : String), lookup v.name = some value ∧ v.Refuses value) := by
  constructor
  · intro c h
    have hc : c.IsNormal := isNormal_standard.assignAll h
    refine ⟨hc, ?_⟩
    rw [ofLookup, hc.assignAll_valueOf fun v _ => c.toLookup_name v, foldl_withSetting]
  · have hall : ∀ v, v ∈ Variable.inOrder := by
      intro v
      cases v <;> decide
    rw [ofLookup, assignAll_error_iff]
    simp only [hall, true_and]

/-- A tag with several at signs between blanks, a level in capitals, and a filter that is blank. -/
theorem ofLookup_normal_and_stable_unclean :
    let lookup : String → Option String := fun name =>
      if name = "BDD_PLAN_DEFINITION_TAG" then some " @@business\t"
      else if name = "BDD_PLAN_LOG_LEVEL" then some "WARNING"
      else if name = "BDD_PLAN_TAG_FILTER" then some " \u00a0"
      else if name = "BDD_PLAN_DEFAULT_LANGUAGE" then some ""
      else none
    ∃ c, ofLookup lookup = .ok c ∧ c.redefinition.definitionTag = "business" ∧
      c.logLevel = .warn ∧ c.tagFilter = none ∧ c.defaultLanguage = "" ∧
      c.IsNormal ∧ ofLookup c.toLookup = .ok c := by
  intro lookup
  have h : ofLookup lookup = .ok { Config.standard with
      logLevel := .warn, defaultLanguage := "",
      redefinition.definitionTag := "business" } := by
    decide
  exact ⟨_, h, rfl, rfl, rfl, rfl, (ofLookup_normal_and_stable lookup).1 _ h⟩

/-- Blanks inside a tag remain when those around it and the at signs are taken away. -/
example : (ofLookup fun name =>
    if name = "BDD_PLAN_IMPLEMENTATION_TAG" then some "@ technical" else none) =
      .error (.notSingleTag "BDD_PLAN_IMPLEMENTATION_TAG" "@ technical") := by
  decide

end Config

end FeaturePlan
