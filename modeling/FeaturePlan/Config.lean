import FeaturePlan.LogLevel
import FeaturePlan.Text.Blank

/-! Settings, with the rules for reading them from text variables. -/

namespace FeaturePlan

/-- How definition and implementation scenarios are merged. The tags are without their at sign. -/
structure RedefinitionConfig where
  enabled : Bool
  definitionTag : String
  implementationTag : String
  stepMapProperty : String
deriving DecidableEq, Repr, Inhabited

def RedefinitionConfig.standard : RedefinitionConfig where
  enabled := true
  definitionTag := "definition"
  implementationTag := "implementation"
  stepMapProperty := "redefinition.stepMap"

/-- Settings of a plan. The tag pattern tells which tags are ids; the tag filter tells which
scenarios belong to the plan. -/
structure Config where
  logLevel : LogLevel
  idTagPattern : Option String
  tagFilter : Option String
  defaultLanguage : String
  redefinition : RedefinitionConfig
deriving DecidableEq, Repr, Inhabited

def Config.standard : Config where
  logLevel := .info
  idTagPattern := some "ID-(.*)"
  tagFilter := none
  defaultLanguage := "en"
  redefinition := .standard

inductive ConfigError where
  | unknownLogLevel (value : String)
  | notBoolean (name value : String)
  | notSingleTag (name value : String)
  | blank (name : String)
  /-- The message of whatever refused the default language. -/
  | badLanguage (message : String)
deriving DecidableEq, Repr, Inhabited

namespace ConfigError

def reason : ConfigError → String
  | unknownLogLevel value =>
    "unknown log level '" ++ value ++ "', expected one of: trace, debug, info, warn, error"
  | notBoolean name value => "invalid " ++ name ++ " value '" ++ value ++ "', expected a boolean"
  | notSingleTag name value =>
    "invalid " ++ name ++ " value '" ++ value ++ "', expected a single tag"
  | blank name => name ++ " must not be empty"
  | badLanguage message => message

def message (e : ConfigError) : String :=
  "invalid configuration: " ++ e.reason

end ConfigError

def LogLevel.parse (word : String) : Except ConfigError LogLevel :=
  match LogLevel.find? word with
  | some level => .ok level
  | none => .error (.unknownLogLevel word)

namespace Config

/-- The text without the blanks around it; a blank text is none. -/
def visibleText? (text : String) : Option String :=
  let visible := Text.trimmed text
  if visible = "" then none else some visible

/-- The truth value that a word names. Each word may be written in lower case, in capitals, or
with a capital letter at its start. -/
def truth? (word : String) : Option Bool :=
  if word ∈ ["1", "true", "TRUE", "True", "yes", "YES", "Yes", "on", "ON", "On"] then some true
  else if word ∈ ["0", "false", "FALSE", "False", "no", "NO", "No", "off", "OFF", "Off"] then
    some false
  else none

/-- The name of a tag, which may be written with at signs in front. -/
def tagName? (text : String) : Option String :=
  let name := (Text.trim text.toList).dropWhile (· == '@')
  if name = [] ∨ name.any Text.isBlank then none else some (.ofList name)

inductive Variable where
  | logLevel
  | idTagPattern
  | tagFilter
  | defaultLanguage
  | redefinitionEnabled
  | definitionTag
  | implementationTag
  | stepMapProperty
deriving DecidableEq, Repr

def Variable.name : Variable → String
  | logLevel => "BDD_PLAN_LOG_LEVEL"
  | idTagPattern => "BDD_PLAN_ID_TAG_PATTERN"
  | tagFilter => "BDD_PLAN_TAG_FILTER"
  | defaultLanguage => "BDD_PLAN_DEFAULT_LANGUAGE"
  | redefinitionEnabled => "BDD_PLAN_REDEFINITION_ENABLED"
  | definitionTag => "BDD_PLAN_DEFINITION_TAG"
  | implementationTag => "BDD_PLAN_IMPLEMENTATION_TAG"
  | stepMapProperty => "BDD_PLAN_STEP_MAP_PROPERTY"

/-- The order in which variables are read: the first that cannot be read decides the error. -/
def Variable.inOrder : List Variable :=
  [logLevel, idTagPattern, tagFilter, defaultLanguage, redefinitionEnabled, definitionTag,
    implementationTag, stepMapProperty]

/-- The settings with the one changed that a variable stands for. -/
def assign (c : Config) (v : Variable) (value : String) : Except ConfigError Config :=
  match v with
  | .logLevel => do
    let logLevel ← LogLevel.parse value
    return { c with logLevel }
  | .idTagPattern => .ok { c with idTagPattern := visibleText? value }
  | .tagFilter => .ok { c with tagFilter := visibleText? value }
  | .defaultLanguage => .ok { c with defaultLanguage := Text.trimmed value }
  | .redefinitionEnabled =>
    match truth? (Text.trimmed value) with
    | some enabled => .ok { c with redefinition.enabled := enabled }
    | none => .error (.notBoolean v.name value)
  | .definitionTag =>
    match tagName? value with
    | some tag => .ok { c with redefinition.definitionTag := tag }
    | none => .error (.notSingleTag v.name value)
  | .implementationTag =>
    match tagName? value with
    | some tag => .ok { c with redefinition.implementationTag := tag }
    | none => .error (.notSingleTag v.name value)
  | .stepMapProperty =>
    match visibleText? value with
    | some property => .ok { c with redefinition.stepMapProperty := property }
    | none => .error (.blank v.name)

def assignAll (lookup : String → Option String) (c : Config) :
    List Variable → Except ConfigError Config
  | [] => .ok c
  | v :: vs =>
    match lookup v.name with
    | none => c.assignAll lookup vs
    | some value => do
      let c ← c.assign v value
      c.assignAll lookup vs

/-- The standard settings changed by the variables that have a value. -/
def ofLookup (lookup : String → Option String) : Except ConfigError Config :=
  standard.assignAll lookup Variable.inOrder

def overridden (c : Config) (level : Option LogLevel) (filter : Option String)
    (enabled : Option Bool) : Config :=
  { c with
    logLevel := level.getD c.logLevel
    tagFilter := match filter with
      | some f => visibleText? f
      | none => c.tagFilter
    redefinition.enabled := enabled.getD c.redefinition.enabled }

def withIdTagPattern (c : Config) (pattern : String) : Config :=
  { c with idTagPattern := visibleText? pattern }

def withTagFilter (c : Config) (expression : String) : Config :=
  { c with tagFilter := visibleText? expression }

end Config

end FeaturePlan
