import FeaturePlan.Dialect

/-! The languages in which features can be written. -/

namespace FeaturePlan

def Keywords.english : Keywords where
  code := "en"
  name := "English"
  feature := ["Feature", "Business Need", "Ability"]
  background := ["Background"]
  scenario := ["Example", "Scenario"]
  outline := ["Scenario Outline", "Scenario Template"]
  examples := ["Examples", "Scenarios"]
  givens := ["Given "]
  whens := ["When "]
  thens := ["Then "]
  ands := ["And "]
  buts := ["But "]

def Keywords.spanish : Keywords where
  code := "es"
  name := "Spanish"
  feature := ["Característica", "Necesidad del negocio", "Requisito"]
  background := ["Antecedentes"]
  scenario := ["Ejemplo", "Escenario"]
  outline := ["Esquema del escenario"]
  examples := ["Ejemplos"]
  givens := ["Dado ", "Dada ", "Dados ", "Dadas "]
  whens := ["Cuando "]
  thens := ["Entonces "]
  ands := ["Y ", "E "]
  buts := ["Pero "]

def Keywords.french : Keywords where
  code := "fr"
  name := "French"
  feature := ["Fonctionnalité"]
  background := ["Contexte"]
  scenario := ["Exemple", "Scénario"]
  outline := ["Plan du scénario", "Plan du Scénario"]
  examples := ["Exemples"]
  givens := ["Soit ", "Sachant que ", "Sachant qu'", "Sachant ", "Etant donné que ",
    "Etant donné qu'", "Etant donné ", "Etant donnée ", "Etant donnés ", "Etant données ",
    "Étant donné que ", "Étant donné qu'", "Étant donné ", "Étant donnée ", "Étant donnés ",
    "Étant données "]
  whens := ["Quand ", "Lorsque ", "Lorsqu'"]
  thens := ["Alors ", "Donc "]
  ands := ["Et que ", "Et qu'", "Et "]
  buts := ["Mais que ", "Mais qu'", "Mais "]

def Keywords.german : Keywords where
  code := "de"
  name := "German"
  feature := ["Funktionalität", "Funktion"]
  background := ["Grundlage", "Hintergrund", "Voraussetzungen", "Vorbedingungen"]
  scenario := ["Beispiel", "Szenario"]
  outline := ["Szenariogrundriss", "Szenarien"]
  examples := ["Beispiele"]
  givens := ["Angenommen ", "Gegeben sei ", "Gegeben seien "]
  whens := ["Wenn "]
  thens := ["Dann "]
  ands := ["Und "]
  buts := ["Aber "]

def Keywords.italian : Keywords where
  code := "it"
  name := "Italian"
  feature := ["Funzionalità", "Esigenza di Business", "Abilità"]
  background := ["Contesto"]
  scenario := ["Esempio", "Scenario"]
  outline := ["Schema dello scenario"]
  examples := ["Esempi"]
  givens := ["Dato ", "Data ", "Dati ", "Date "]
  whens := ["Quando "]
  thens := ["Allora "]
  ands := ["E "]
  buts := ["Ma "]

def Keywords.portuguese : Keywords where
  code := "pt"
  name := "Portuguese"
  feature := ["Funcionalidade", "Característica", "Caracteristica"]
  background := ["Contexto", "Cenário de Fundo", "Cenario de Fundo", "Fundo"]
  scenario := ["Exemplo", "Cenário", "Cenario"]
  outline := ["Esquema do Cenário", "Esquema do Cenario", "Delineação do Cenário",
    "Delineacao do Cenario"]
  examples := ["Exemplos", "Cenários", "Cenarios"]
  givens := ["Dado ", "Dada ", "Dados ", "Dadas "]
  whens := ["Quando "]
  thens := ["Então ", "Entao "]
  ands := ["E "]
  buts := ["Mas "]

namespace Dialect

def known : List Dialect :=
  [Keywords.english, Keywords.spanish, Keywords.french, Keywords.german, Keywords.italian,
    Keywords.portuguese].map ofKeywords

def find? (code : String) : Option Dialect :=
  known.find? fun d => d.code = code

def english : Dialect :=
  ofKeywords Keywords.english

def codes : List String :=
  (known.map (·.code)).mergeSort fun a b => a ≤ b

end Dialect

end FeaturePlan
