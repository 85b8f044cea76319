import FeaturePlan.Plan.Export
import FeaturePlan.Proofs.Json.RoundTrip
import Mathlib.Data.List.Basic
import Mathlib.Data.List.Nodup

/-! # What an export says

From an export everything in a plan can be told but the templates of its outlines. Members may be
missing, but the keys of an object show which ones are; and in the text of a place, no bracket
stands behind the one that ends the name of the resource, whatever that name holds. -/

namespace FeaturePlan

/-! ## Members that may be missing -/

namespace Json

def present : List (String × Option Json) → List (String × Json)
  | [] => []
  | (_, none) :: members => present members
  | (key, some j) :: members => (key, j) :: present members

theorem present_cons (key : String) (j : Option Json) (members : List (String × Option Json)) :
    present ((key, j) :: members) = (j.map (key, ·)).toList ++ present members := by
  cases j <;> rfl

theorem keys_present_sublist (members : List (String × Option Json)) :
    ((present members).map Prod.fst).Sublist (members.map Prod.fst) := by
  induction members with
  | nil => exact .slnil
  | cons m members ih =>
      obtain ⟨key, j⟩ := m
      cases j with
      | none => exact ih.cons key
      | some j => exact ih.cons_cons key

theorem mem_keys_of_mem_present {m : String × Json} {members : List (String × Option Json)}
    (h : m ∈ present members) : m.1 ∈ members.map Prod.fst :=
  (keys_present_sublist members).subset (List.mem_map_of_mem h)

theorem mem_present {key : String} {j : Json} {members : List (String × Option Json)} :
    (key, j) ∈ present members ↔ (key, some j) ∈ members := by
  induction members with
  | nil => simp [present]
  | cons m members ih =>
      obtain ⟨key', j'⟩ := m
      cases j' <;> simp [present, ih]

/-- As long as no key occurs twice, the members with a value tell which members have none. -/
theorem present_inj {members members' : List (String × Option Json)}
    (hkeys : members.map Prod.fst = members'.map Prod.fst)
    (hnodup : (members.map Prod.fst).Nodup) (h : present members = present members') :
    members = members' := by
  induction members generalizing members' with
  | nil => exact (List.map_eq_nil_iff.mp hkeys.symm).symm
  | cons m members ih =>
      cases members' with
      | nil => cases hkeys
      | cons m' members' =>
          obtain ⟨key, j⟩ := m
          obtain ⟨key', j'⟩ := m'
          obtain ⟨hkey, htail⟩ := List.cons.inj hkeys
          obtain rfl : key = key' := hkey
          obtain ⟨hnew, hrest⟩ := List.nodup_cons.mp hnodup
          cases j with
          | none =>
              cases j' with
              | none => rw [ih htail hrest h]
              | some j' =>
                  -- What is there on one side only would be the second member with its key.
                  have hmem : (key, j') ∈ present members := by
                    rw [present, present] at h
                    exact h ▸ List.mem_cons_self
                  exact absurd (mem_keys_of_mem_present hmem) hnew
          | some j =>
              cases j' with
              | none =>
                  have hmem : (key, j) ∈ present members' := by
                    rw [present, present] at h
                    exact h ▸ List.mem_cons_self
                  exact absurd (htail ▸ mem_keys_of_mem_present hmem) hnew
              | some j' =>
                  obtain ⟨hm, hmore⟩ := List.cons.inj h
                  rw [ih htail hrest hmore, (Prod.mk.inj hm).2]

/-- The value of a member that is left out where it would say no more than a default. -/
def unlessDefault {α : Type} (isDefault : α → Bool) (f : α → Json) (a : α) : Option Json :=
  if isDefault a then none else some (f a)

theorem toList_unlessDefault {α : Type} (key : String) (isDefault : α → Bool) (f : α → Json)
    (a : α) : ((unlessDefault isDefault f a).map (key, ·)).toList =
      if isDefault a then [] else [(key, f a)] := by
  unfold unlessDefault
  split <;> rfl

theorem toList_optionMember (key : String) (text? : Option String) :
    ((text?.map string).map (key, ·)).toList = optionMember key text? := by
  cases text? <;> rfl

theorem unlessDefault_inj {α : Type} {isDefault : α → Bool} {f : α → Json}
    (hone : ∀ a b, isDefault a = true → isDefault b = true → a = b) (hf : f.Injective) :
    (unlessDefault isDefault f).Injective := by
  intro a b h
  unfold unlessDefault at h
  split at h
  · next ha =>
      split at h
      · next hb => exact hone a b ha hb
      · cases h
  · split at h
    · cases h
    · exact hf (Option.some.inj h)

theorem string_inj : string.Injective :=
  fun _ _ => string.inj

theorem strings_inj : strings.Injective :=
  fun _ _ h => List.map_injective_iff.mpr string_inj (array.inj h)

end Json

/-! ## Places -/

theorem eq_nil_of_append_cons {α : Type} {mark : α} {mid bs bs' : List α} (h : mark ∉ bs)
    (heq : mark :: bs = mid ++ mark :: bs') : mid = [] := by
  cases mid with
  | nil => rfl
  | cons a mid =>
      have hrest := (List.cons.inj heq).2
      exact absurd (by simp [hrest]) h

/-- What stands on both sides of a mark can be told, if the mark does not occur behind its place. -/
theorem append_cons_inj {α : Type} {mark : α} {as bs as' bs' : List α} (h : mark ∉ bs)
    (h' : mark ∉ bs') (heq : as ++ mark :: bs = as' ++ mark :: bs') : as = as' ∧ bs = bs' := by
  rcases List.append_eq_append_iff.mp heq with ⟨mid, rfl, hrest⟩ | ⟨mid, rfl, hrest⟩
  · obtain rfl := eq_nil_of_append_cons h hrest
    simpa using hrest
  · obtain rfl := eq_nil_of_append_cons h' hrest
    simpa using hrest.symm

theorem notMem_toDigits {c : Char} (h : c.isDigit = false) (n : Nat) : c ∉ Nat.toDigits 10 n := by
  intro hmem
  have hdigit := Nat.isDigit_of_mem_toDigits (by omega) (by omega) hmem
  rw [h] at hdigit
  cases hdigit

theorem toDigits_inj {m n : Nat} (h : Nat.toDigits 10 m = Nat.toDigits 10 n) : m = n :=
  calc
    m = Nat.ofDigitChars 10 (Nat.toDigits 10 m) 0 := Nat.ofDigitChars_ten_toDigits.symm
    _ = Nat.ofDigitChars 10 (Nat.toDigits 10 n) 0 := by rw [h]
    _ = n := Nat.ofDigitChars_ten_toDigits

/-- Resource, line and column can be told from the text of a place. -/
theorem Source.text_inj : Source.text.Injective := by
  rintro ⟨resource, ⟨line, column⟩⟩ ⟨resource', ⟨line', column'⟩⟩ h
  have hlist : resource.toList ++ '[' :: (Nat.toDigits 10 line ++
      ',' :: (Nat.toDigits 10 column ++ [']'])) =
      resource'.toList ++ '[' :: (Nat.toDigits 10 line' ++
        ',' :: (Nat.toDigits 10 column' ++ [']'])) := by
    simpa [Source.text] using congrArg String.toList h
  have hcomma : ∀ column, ',' ∉ Nat.toDigits 10 column ++ [']'] := by
    intro column
    simp [notMem_toDigits]
  have hbracket : ∀ line column,
      '[' ∉ Nat.toDigits 10 line ++ ',' :: (Nat.toDigits 10 column ++ [']']) := by
    intro line column
    simp [notMem_toDigits]
  obtain ⟨hresource, hplace⟩ := append_cons_inj (hbracket _ _) (hbracket _ _) hlist
  obtain ⟨hline, hcolumn⟩ := append_cons_inj (hcomma _) (hcomma _) hplace
  rw [String.toList_inj.mp hresource, toDigits_inj hline,
    toDigits_inj (List.append_cancel_right hcolumn)]

example : Source.text ⟨"a[1,2]", ⟨3, 4⟩⟩ = "a[1,2][3,4]" := by
  decide

/-! ## Labels -/

def Properties.json (p : Properties) : Json :=
  .object (p.entries.map fun (key, value) => (key, .string value))

theorem NodeKind.name_inj : name.Injective := by
  intro k k' h
  cases k <;> cases k' <;> first | rfl | exact absurd h (by decide)

theorem StepData.json_inj : json.Injective := by
  intro d d' h
  cases d with
  | table rows =>
      cases d' with
      | table rows' =>
          have hrows : rows.map Json.strings = rows'.map Json.strings := by
            simpa [json] using h
          rw [List.map_injective_iff.mpr Json.strings_inj hrows]
      | document content contentType => simp [json] at h
  | document content contentType =>
      cases d' with
      | table rows => simp [json] at h
      | document content' contentType' =>
          cases contentType <;> cases contentType' <;> simp_all [json, Json.optionMember]

theorem Properties.json_inj : json.Injective := by
  rintro ⟨entries, _⟩ ⟨entries', _⟩ h
  have hentries : entries = entries' := by
    refine List.map_injective_iff.mpr ?_ (Json.object.inj h)
    rintro ⟨key, value⟩ ⟨key', value'⟩ heq
    simpa using heq
  simp only [hentries]

/-- What a node with the label and the children can say, and under which keys. -/
def Label.fields (l : Label) (children : List Json) : List (String × Option Json) :=
  [("node_type", some (.string l.kind.name)), ("id", l.id.map .string),
    ("name", some (.string l.name)), ("keyword", Json.unlessDefault (· == "") .string l.keyword),
    ("language", Json.unlessDefault (· == "") .string l.language),
    ("description", Json.unlessDefault List.isEmpty Json.strings l.description),
    ("tags", Json.unlessDefault List.isEmpty Json.strings l.tags),
    ("properties", Json.unlessDefault (·.entries.isEmpty) Properties.json l.properties),
    ("source", (l.source.map Source.text).map .string),
    ("background", Json.unlessDefault not .bool l.background),
    ("data", l.data.map StepData.json),
    ("children", Json.unlessDefault List.isEmpty .array children)]

theorem Label.nodup_keys (l : Label) (children : List Json) :
    ((l.fields children).map Prod.fst).Nodup := by
  have hkeys : (l.fields children).map Prod.fst = ["node_type", "id", "name", "keyword", "language",
      "description", "tags", "properties", "source", "background", "data", "children"] := rfl
  rw [hkeys]
  decide

theorem Label.present_fields (l : Label) (children : List Json) :
    Json.present (l.fields children) =
      l.members ++ if children.isEmpty then [] else [("children", .array children)] := by
  simp only [Label.fields, Json.present_cons, Json.present, Json.toList_unlessDefault,
    Json.toList_optionMember, Label.members, Json.textMember, Json.listMember,
    Properties.json, Option.map_some, Option.toList_some, List.append_assoc, List.append_nil,
    beq_iff_eq]
  cases l.data <;> cases l.background <;> rfl

theorem Label.fields_inj {l l' : Label} {children children' : List Json}
    (h : l.fields children = l'.fields children') : l = l' ∧ children = children' := by
  have htext : (Json.unlessDefault (· == "") .string).Injective :=
    Json.unlessDefault_inj (by simp_all) Json.string_inj
  have hlist {α : Type} {f : List α → Json} (hf : f.Injective) :
      (Json.unlessDefault List.isEmpty f).Injective :=
    Json.unlessDefault_inj (by simp_all) hf
  have hmap : (Json.unlessDefault (·.entries.isEmpty) Properties.json).Injective := by
    refine Json.unlessDefault_inj ?_ Properties.json_inj
    rintro ⟨entries, _⟩ ⟨entries', _⟩ he he'
    simp_all
  have hflag : (Json.unlessDefault not .bool).Injective :=
    Json.unlessDefault_inj (by simp_all) fun _ _ => Json.bool.inj
  simp only [Label.fields, List.cons.injEq, Prod.mk.injEq, true_and, and_true] at h
  obtain ⟨hkind, hid, hname, hkeyword, hlanguage, hdescription, htags, hproperties, hsource,
    hbackground, hdata, hchildren⟩ := h
  refine ⟨?_, hlist (fun _ _ => Json.array.inj) hchildren⟩
  cases l
  cases l'
  rw [Label.mk.injEq]
  exact ⟨NodeKind.name_inj (Json.string_inj (Option.some.inj hkind)),
    Option.map_injective Json.string_inj hid, Json.string_inj (Option.some.inj hname),
    htext hkeyword, htext hlanguage, hlist Json.strings_inj hdescription,
    hlist Json.strings_inj htags, hmap hproperties,
    Option.map_injective Source.text_inj (Option.map_injective Json.string_inj hsource),
    hflag hbackground, Option.map_injective StepData.json_inj hdata⟩

/-! ## Objects with distinct keys -/

namespace Json

/-- No object has two members with the same key, however deep it lies. So the order of members does
not matter. -/
inductive IsUnambiguous : Json → Prop
  | null : IsUnambiguous null
  | bool (b : Bool) : IsUnambiguous (bool b)
  | string (s : String) : IsUnambiguous (string s)
  | array {items : List Json} (hitems : ∀ j ∈ items, IsUnambiguous j) : IsUnambiguous (array items)
  | object {members : List (String × Json)} (hkeys : (members.map Prod.fst).Nodup)
      (hvalues : ∀ m ∈ members, IsUnambiguous m.2) : IsUnambiguous (object members)

theorem isUnambiguous_strings (items : List String) : IsUnambiguous (strings items) := by
  apply IsUnambiguous.array
  intro j hj
  obtain ⟨s, -, rfl⟩ := List.mem_map.mp hj
  exact .string s

theorem isUnambiguous_present {members : List (String × Option Json)}
    (hkeys : (members.map Prod.fst).Nodup)
    (hvalues : ∀ m ∈ members, ∀ j ∈ m.2, IsUnambiguous j) :
    IsUnambiguous (.object (present members)) := by
  refine .object (hkeys.sublist (keys_present_sublist members)) ?_
  rintro ⟨key, j⟩ hm
  exact hvalues _ (mem_present.mp hm) j rfl

theorem isUnambiguous_of_mem_unlessDefault {α : Type} {isDefault : α → Bool} {f : α → Json} {a : α}
    (h : IsUnambiguous (f a)) : ∀ j ∈ unlessDefault isDefault f a, IsUnambiguous j := by
  intro j hj
  unfold unlessDefault at hj
  split at hj
  · cases hj
  · exact Option.some.inj hj ▸ h

theorem isUnambiguous_of_mem_map {α : Type} {f : α → Json} {a? : Option α}
    (h : ∀ a, IsUnambiguous (f a)) : ∀ j ∈ a?.map f, IsUnambiguous j := by
  intro j hj
  obtain ⟨a, -, rfl⟩ := Option.map_eq_some_iff.mp hj
  exact h a

end Json

theorem StepData.isUnambiguous_json (d : StepData) : d.json.IsUnambiguous := by
  cases d with
  | table rows =>
      have hrows : (Json.array (rows.map Json.strings)).IsUnambiguous := by
        apply Json.IsUnambiguous.array
        intro j hj
        obtain ⟨row, -, rfl⟩ := List.mem_map.mp hj
        exact Json.isUnambiguous_strings row
      refine .object (by simp) ?_
      simpa using ⟨.string _, hrows⟩
  | document content contentType =>
      cases contentType <;> refine .object (by simp [Json.optionMember]) ?_ <;>
        simp [Json.optionMember, Json.IsUnambiguous.string]

theorem Properties.isUnambiguous_json (p : Properties) : p.json.IsUnambiguous := by
  refine .object ?_ ?_
  · have hkeys : (p.entries.map Prod.fst).Nodup :=
      List.pairwise_map.mpr (p.sorted.imp fun h => String.ne_of_lt h)
    simpa [Function.comp_def] using hkeys
  · intro m hm
    obtain ⟨e, -, rfl⟩ := List.mem_map.mp hm
    exact .string e.2

theorem Label.isUnambiguous_fields (l : Label) {children : List Json}
    (h : ∀ j ∈ children, j.IsUnambiguous) :
    ∀ m ∈ l.fields children, ∀ j ∈ m.2, j.IsUnambiguous := by
  have hsome : ∀ s, ∀ j ∈ some (Json.string s), j.IsUnambiguous := by
    intro s j hj
    exact Option.some.inj hj ▸ .string s
  simp only [Label.fields, List.forall_mem_cons]
  exact ⟨hsome _, Json.isUnambiguous_of_mem_map .string, hsome _,
    Json.isUnambiguous_of_mem_unlessDefault (.string _),
    Json.isUnambiguous_of_mem_unlessDefault (.string _),
    Json.isUnambiguous_of_mem_unlessDefault (Json.isUnambiguous_strings _),
    Json.isUnambiguous_of_mem_unlessDefault (Json.isUnambiguous_strings _),
    Json.isUnambiguous_of_mem_unlessDefault (Properties.isUnambiguous_json _),
    Json.isUnambiguous_of_mem_map .string, Json.isUnambiguous_of_mem_unlessDefault (.bool _),
    Json.isUnambiguous_of_mem_map StepData.isUnambiguous_json,
    Json.isUnambiguous_of_mem_unlessDefault (.array h), List.forall_mem_nil _⟩

/-! ## Nodes -/

namespace Node

theorem json_eq (label : Label) (children : List Node) (outline : Option (Template Node)) :
    (Node.mk label children outline).json =
      .object (Json.present (label.fields (jsonAll children))) := by
  rw [Label.present_fields]
  cases children <;> rfl

mutual

theorem json_written : ∀ n : Node, n.written.json = n.json
  | ⟨label, children, outline⟩ => by
      rw [written, json_eq, json_eq, jsonAll_written children]

theorem jsonAll_written : ∀ ns : List Node, jsonAll (writtenAll ns) = jsonAll ns
  | [] => rfl
  | n :: ns => by rw [writtenAll, jsonAll, jsonAll, json_written n, jsonAll_written ns]

end

mutual

/-- Nodes that are written the same way agree on all that is written of them. -/
theorem written_of_json : ∀ n m : Node, n.json = m.json → n.written = m.written
  | ⟨label, children, outline⟩, ⟨label', children', outline'⟩ => fun h => by
      rw [json_eq, json_eq] at h
      have hfields : label.fields (jsonAll children) = label'.fields (jsonAll children') :=
        Json.present_inj rfl (Label.nodup_keys _ _) (Json.object.inj h)
      obtain ⟨hlabel, hchildren⟩ := Label.fields_inj hfields
      rw [written, written, hlabel, writtenAll_of_jsonAll children children' hchildren]

theorem writtenAll_of_jsonAll :
    ∀ ns ms : List Node, jsonAll ns = jsonAll ms → writtenAll ns = writtenAll ms
  | [], [] => fun _ => rfl
  | [], _ :: _ => fun h => by cases h
  | _ :: _, [] => fun h => by cases h
  | n :: ns, m :: ms => fun h => by
      obtain ⟨hhead, htail⟩ := List.cons.inj h
      rw [writtenAll, writtenAll, written_of_json n m hhead, writtenAll_of_jsonAll ns ms htail]

end

mutual

theorem isUnambiguous_json : ∀ n : Node, n.json.IsUnambiguous
  | ⟨label, children, outline⟩ => by
      rw [json_eq]
      exact Json.isUnambiguous_present (Label.nodup_keys _ _)
        (Label.isUnambiguous_fields _ (isUnambiguous_jsonAll children))

theorem isUnambiguous_jsonAll : ∀ ns : List Node, ∀ j ∈ jsonAll ns, j.IsUnambiguous
  | [] => List.forall_mem_nil _
  | n :: ns => List.forall_mem_cons.mpr ⟨isUnambiguous_json n, isUnambiguous_jsonAll ns⟩

end

end Node

/-! ## Plans -/

theorem Json.isUnambiguous_ofPlan (p : List Node) : (ofPlan p).IsUnambiguous := by
  refine .object (by simp) ?_
  simpa using Json.IsUnambiguous.array (Node.isUnambiguous_jsonAll p)

theorem Json.ofPlan_eq_iff {p q : List Node} :
    ofPlan p = ofPlan q ↔ Node.writtenAll p = Node.writtenAll q := by
  constructor
  · intro h
    apply Node.writtenAll_of_jsonAll
    simpa [ofPlan] using h
  · intro h
    rw [ofPlan, ← Node.jsonAll_written p, h, Node.jsonAll_written, ofPlan]

/-- Both texts of a plan are read as its value, in which no object has two members with the same
key, and its bytes are those of the text without blanks. Two plans have the same value, or the same
text, exactly if they differ in nothing but the templates of their outlines. -/
theorem Json.ofPlan_faithful (p q : List Node) (out : ByteArray) :
    read? (ofPlan p).compact = some (ofPlan p) ∧
      read? (ofPlan p).pretty = some (ofPlan p) ∧
      (ofPlan p).IsUnambiguous ∧
      (ofPlan p).write out = out ++ (ofPlan p).compact.toUTF8 ∧
      (ofPlan p = ofPlan q ↔ Node.writtenAll p = Node.writtenAll q) ∧
      ((ofPlan p).compact = (ofPlan q).compact ↔ Node.writtenAll p = Node.writtenAll q) :=
  ⟨read?_compact _, read?_pretty _, isUnambiguous_ofPlan p, write_eq _ _, ofPlan_eq_iff,
    compact_inj.trans ofPlan_eq_iff⟩

end FeaturePlan
