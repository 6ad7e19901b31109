import ClassAudit.Policy.Xml
import ClassAudit.Proofs.Policy.Yaml

/-! # Policies in both formats

    What a document says about a policy can be said by elements with attributes as well as by
    mappings. Elements name the rules and the sections that the lists stand in, and a flag is a word.
    Documents of both kinds that say the same are loaded as the same policy, or refused for the same
    conflicts.
-/

namespace ClassAudit

variable {name rule : String} {root e : Element}

open Xml

namespace Xml.Element

variable {e : Element}

/-! ### Comparing elements -/

mutual

def decEq : (a b : Element) → Decidable (a = b)
  | mk name attributes children, mk name' attributes' children' =>
    have := decEqAll children children'
    decidable_of_iff (name = name' ∧ attributes = attributes' ∧ children = children') (by simp)

def decEqAll : (as bs : List Element) → Decidable (as = bs)
  | [], [] => isTrue rfl
  | [], _ :: _ => isFalse nofun
  | _ :: _, [] => isFalse nofun
  | a :: as, b :: bs =>
    have := decEq a b
    have := decEqAll as bs
    decidable_of_iff (a = b ∧ as = bs) (by simp)

end

instance : DecidableEq Element := decEq

/-! ### Attributes -/

/-- An element whose attributes, in some order, have given names and values with given
    properties. -/
structure HasAttributes (e : Element) (fields : List (String × (String → Prop))) : Prop where
  names : (e.attributes.map Prod.fst).Perm (fields.map Prod.fst)
  values : ∀ a ∈ e.attributes, ∀ f ∈ fields, a.1 = f.1 → f.2 a.2

theorem value_of_mem (hnodup : (e.attributes.map Prod.fst).Nodup) {value : String}
    (h : (name, value) ∈ e.attributes) : e.value name = value := by
  obtain ⟨before, after, heq⟩ := List.append_of_mem (List.mem_reverse.mpr h)
  have hnodup' : (e.attributes.reverse.map Prod.fst).Nodup := by
    rw [List.map_reverse]
    exact List.nodup_reverse.mpr hnodup
  rw [heq, List.map_append, List.map_cons] at hnodup'
  have hbefore : ∀ a ∈ before, (name != a.1) = true := by
    intro a ha
    have hne : a.1 ≠ name :=
      (List.nodup_append.mp hnodup').2.2 _ (List.mem_map_of_mem ha) _ List.mem_cons_self
    simpa using hne.symm
  have hlookup : e.attributes.reverse.lookup name = some value :=
    List.lookup_eq_some_iff.mpr ⟨before, after, heq, hbefore⟩
  rw [Element.value, hlookup]
  rfl

variable {fields : List (String × (String → Prop))}

/-- The value of a named attribute has its property. -/
theorem HasAttributes.value (h : e.HasAttributes fields) (hnodup : (fields.map Prod.fst).Nodup)
    {property : String → Prop} (hmem : (name, property) ∈ fields) : property (e.value name) := by
  have hname : name ∈ e.attributes.map Prod.fst :=
    h.names.mem_iff.mpr (List.mem_map_of_mem hmem)
  obtain ⟨⟨name, value⟩, ha, rfl⟩ := List.mem_map.mp hname
  rw [value_of_mem (h.names.nodup_iff.mpr hnodup) ha]
  exact h.values _ ha _ hmem rfl

theorem HasAttributes.value_eq_empty (h : e.HasAttributes fields)
    (hname : name ∉ fields.map Prod.fst) : e.value name = "" := by
  have hlookup : e.attributes.reverse.lookup name = none := by
    rw [List.lookup_eq_none_iff]
    intro a ha
    have hne : name ≠ a.1 := by
      rintro rfl
      exact hname (h.names.mem_iff.mp (List.mem_map_of_mem (List.mem_reverse.mp ha)))
    simpa using hne
  rw [Element.value, hlookup]
  rfl

/-! ### What elements say -/

/-- The words for a truth value. -/
def flagWords : Bool → List String
  | true => ["true", "True", "TRUE", "t", "T", "1"]
  | false => ["false", "False", "FALSE", "f", "F", "0"]

/-- A comment as an attribute, which may be left out. -/
def commentAttribute (comment : Option String) : List (String × (String → Prop)) :=
  comment.toList.map fun c => ("comment", (· = c))

def ruleAttributes (r : RuleText) : List (String × (String → Prop)) :=
  [("package", fun s : String => s = r.package)] ++
    (r.includeSubPackages.toList.map fun b => ("includeSubPackages", (· ∈ flagWords b))) ++
    commentAttribute r.comment

/-- An element with a name that is a rule. -/
structure IsRule (name : String) (e : Element) (r : RuleText) : Prop where
  name_eq : e.name = name
  attributes : e.HasAttributes (ruleAttributes r)

def groupAttributes (g : GroupText) : List (String × (String → Prop)) :=
  [("name", fun s : String => s = g.name)] ++ commentAttribute g.comment

/-- An element that is a group, with rules of one name. -/
structure IsGroup (rule : String) (e : Element) (g : GroupText) : Prop where
  name_eq : e.name = "package"
  attributes : e.HasAttributes (groupAttributes g)
  rules : List.Forall₂ (IsRule rule) e.children g.rules

/-- A section with a list. It may be left out if the list is empty. -/
inductive Section {α : Type} (name : String) (item : Element → α → Prop) :
    List α → List Element → Prop
  | present {e : Element} {items : List α} (hname : e.name = name)
      (hitems : List.Forall₂ item e.children items) : Section name item items [e]
  | absent : Section name item [] []

/-- A root element that is a policy. Its sections stand in some order. -/
def IsPolicy (root : Element) (p : PolicyText) : Prop :=
  ∃ alwaysAllowed alwaysForbidden allowed forbidden,
    Section "alwaysAllowed" (IsRule "dependsOn") p.alwaysAllowed alwaysAllowed ∧
    Section "alwaysForbidden" (IsRule "notDependsOn") p.alwaysForbidden alwaysForbidden ∧
    Section "allowed" (IsGroup "dependsOn") p.allowed allowed ∧
    Section "forbidden" (IsGroup "notDependsOn") p.forbidden forbidden ∧
    root.children.Perm (alwaysAllowed ++ alwaysForbidden ++ allowed ++ forbidden)

/-! ### Sections -/

/-- Items that have a name are all found by it. -/
theorem forall₂_named {α : Type} {item : Element → α → Prop} {items : List α}
    (hname : ∀ e a, item e a → e.name = name) (h : List.Forall₂ item e.children items) :
    List.Forall₂ item (e.named name) items := by
  have hall : ∀ c ∈ e.children, c.name = name :=
    ((List.forall₂_and_left _ _).mp (h.imp fun e a ha => ⟨hname e a ha, ha⟩)).1
  have hnamed : e.named name = e.children :=
    List.filter_eq_self.mpr fun c hc => beq_iff_eq.mpr (hall c hc)
  rw [hnamed]
  exact h

section Sections

variable {α : Type} {name : String} {item : Element → α → Prop} {items : List α}
  {elements : List Element}

theorem Section.filter_self (h : Section name item items elements) :
    elements.filter (·.name == name) = elements := by
  cases h with
  | present hname hitems => simp [hname]
  | absent => rfl

theorem Section.filter_ne (h : Section name item items elements) {other : String}
    (hne : name ≠ other) : elements.filter (·.name == other) = [] := by
  cases h with
  | present hname hitems => simp [hname, hne]
  | absent => rfl

/-- The items of a section are found under their common name. As a section has at most one element,
    its place among the others does not matter. -/
theorem Section.forall₂_at2 (h : Section name item items elements) {inner : String}
    (hinner : ∀ e a, item e a → e.name = inner) {all : List Element}
    (hperm : root.children.Perm all) (hall : all.filter (·.name == name) = elements) :
    List.Forall₂ item (root.at2 name inner) items := by
  have hnamed : (root.named name).Perm elements := by
    rw [← hall]
    exact hperm.filter _
  unfold at2
  cases h with
  | present hname hitems =>
    rw [List.perm_singleton.mp hnamed, List.flatMap_singleton]
    exact forall₂_named hinner hitems
  | absent =>
    rw [List.perm_nil.mp hnamed]
    exact .nil

end Sections

end Xml.Element

/-! ### Loading -/

theorem truthValue?_of_mem {b : Bool} {word : String} (h : word ∈ Element.flagWords b) :
    word ≠ "" ∧ truthValue? word = some b := by
  cases b <;> simp only [Element.flagWords, List.mem_cons, List.not_mem_nil, or_false] at h <;>
    rcases h with rfl | rfl | rfl | rfl | rfl | rfl <;> exact ⟨by decide, rfl⟩

theorem nodup_ruleAttributes (r : RuleText) :
    ((Element.ruleAttributes r).map Prod.fst).Nodup := by
  obtain ⟨package, flag, comment⟩ := r
  cases flag <;> cases comment <;> simp [Element.ruleAttributes, Element.commentAttribute]

theorem nodup_groupAttributes (g : GroupText) :
    ((Element.groupAttributes g).map Prod.fst).Nodup := by
  obtain ⟨name, comment, rules⟩ := g
  cases comment <;> simp [Element.groupAttributes, Element.commentAttribute]

theorem value_comment {fields : List (String × (String → Prop))} {comment : Option String}
    (h : e.HasAttributes (fields ++ Element.commentAttribute comment))
    (hnodup : ((fields ++ Element.commentAttribute comment).map Prod.fst).Nodup)
    (hfields : "comment" ∉ fields.map Prod.fst) : e.value "comment" = comment.getD "" := by
  cases comment with
  | none => exact h.value_eq_empty (by simpa [Element.commentAttribute] using hfields)
  | some c =>
    have hmem : ("comment", (· = c)) ∈ fields ++ Element.commentAttribute (some c) :=
      List.mem_append_right _ List.mem_cons_self
    exact h.value hnodup hmem

theorem Rule.ofElement_eq {r : RuleText} (h : e.IsRule name r) (place : String) :
    Rule.ofElement place e = .ok r.rule := by
  have hpackage : (e.value "package" : ByteString) = r.package :=
    h.attributes.value (nodup_ruleAttributes r) List.mem_cons_self
  have hcomment : e.value "comment" = r.comment.getD "" :=
    value_comment h.attributes (nodup_ruleAttributes r) (by cases r.includeSubPackages <;> simp)
  unfold Rule.ofElement RuleText.rule
  simp only [hpackage, hcomment]
  cases hflag : r.includeSubPackages with
  | none =>
    have habsent : e.value "includeSubPackages" = "" := h.attributes.value_eq_empty (by
      cases r.comment <;> simp [Element.ruleAttributes, Element.commentAttribute, hflag])
    simp only [habsent]
    rfl
  | some b =>
    have hmem : ("includeSubPackages", (· ∈ Element.flagWords b)) ∈ Element.ruleAttributes r := by
      simp [Element.ruleAttributes, hflag]
    obtain ⟨hne, htruth⟩ := truthValue?_of_mem (h.attributes.value (nodup_ruleAttributes r) hmem)
    split
    · next hempty => exact absurd hempty hne
    · simp only [htruth]
      rfl

theorem mapM_of_forall₂ {α β : Type} {item : Element → α → Prop}
    {read : Element → Except PolicyXmlError β} {value : α → β} {elements : List Element}
    {items : List α} (h : List.Forall₂ item elements items)
    (hread : ∀ e a, item e a → read e = .ok (value a)) : elements.mapM read = .ok (items.map value) := by
  induction h with
  | nil => rfl
  | cons ha _ ih =>
    rw [List.mapM_cons, hread _ _ ha, ih]
    rfl

theorem RuleGroup.ofElement_eq {g : GroupText} (h : e.IsGroup rule g) (place : String) :
    RuleGroup.ofElement place rule e = .ok g.group := by
  have hname : (e.value "name" : ByteString) = g.name :=
    h.attributes.value (nodup_groupAttributes g) List.mem_cons_self
  have hcomment : e.value "comment" = g.comment.getD "" :=
    value_comment h.attributes (nodup_groupAttributes g) (by simp)
  have hrules : (e.named rule).mapM (Rule.ofElement place) = .ok (g.rules.map RuleText.rule) :=
    mapM_of_forall₂ (Element.forall₂_named (fun _ _ hr => hr.name_eq) h.rules)
      fun _ _ hr => Rule.ofElement_eq hr place
  rw [RuleGroup.ofElement, hrules, hcomment, hname]
  rfl

section Sections

variable {name : String} {elements all : List Element} {root : Element}

theorem mapM_rules {rules : List RuleText}
    (h : Element.Section name (Element.IsRule rule) rules elements)
    (hperm : root.children.Perm all) (hall : all.filter (·.name == name) = elements) :
    (root.at2 name rule).mapM (Rule.ofElement name) = .ok (rules.map RuleText.rule) :=
  mapM_of_forall₂ (h.forall₂_at2 (fun _ _ hr => hr.name_eq) hperm hall)
    fun _ _ hr => Rule.ofElement_eq hr name

theorem mapM_groups {groups : List GroupText}
    (h : Element.Section name (Element.IsGroup rule) groups elements)
    (hperm : root.children.Perm all) (hall : all.filter (·.name == name) = elements) :
    (root.at2 name "package").mapM (RuleGroup.ofElement name rule) =
      .ok (groups.map GroupText.group) :=
  mapM_of_forall₂ (h.forall₂_at2 (fun _ _ hg => hg.name_eq) hperm hall)
    fun _ _ hg => RuleGroup.ofElement_eq hg name

end Sections

theorem Policy.ofElement_eq {p : PolicyText} (h : root.IsPolicy p) :
    Policy.ofElement root = .ok p.policy := by
  obtain ⟨s₁, s₂, s₃, s₄, h₁, h₂, h₃, h₄, hperm⟩ := h
  have hm₁ := mapM_rules h₁ hperm (by
    simp [h₁.filter_self, h₂.filter_ne, h₃.filter_ne, h₄.filter_ne])
  have hm₂ := mapM_rules h₂ hperm (by
    simp [h₁.filter_ne, h₂.filter_self, h₃.filter_ne, h₄.filter_ne])
  have hm₃ := mapM_groups h₃ hperm (by
    simp [h₁.filter_ne, h₂.filter_ne, h₃.filter_self, h₄.filter_ne])
  have hm₄ := mapM_groups h₄ hperm (by
    simp [h₁.filter_ne, h₂.filter_ne, h₃.filter_ne, h₄.filter_self])
  rw [Policy.ofElement, hm₁, hm₂, hm₃, hm₄]
  rfl

theorem Policy.ofXml_eq {bytes : List UInt8} {text : PolicyText}
    (hparse : Xml.parse "dependencies" bytes = .ok root) (hroot : root.IsPolicy text) :
    Policy.ofXml bytes = match text.policy.validate with
      | .ok () => .ok text.policy
      | .error c => .error (.conflict c) := by
  rw [Policy.ofXml, hparse]
  show (Policy.ofElement root >>= _) = _
  rw [Policy.ofElement_eq hroot]
  rfl

/-! ### Both formats -/

/-- A text in XML that says a policy. -/
def PolicyText.InXml (text : PolicyText) (bytes : List UInt8) : Prop :=
  ∃ root, Xml.parse "dependencies" bytes = .ok root ∧ root.IsPolicy text

def PolicyText.InYaml (text : PolicyText) (bytes : List UInt8) : Prop :=
  ∃ d, Yaml.Document.parse bytes = .ok (some d) ∧ d.root.IsPolicy text

/-- Texts in both formats that say the same are loaded as the same policy, or refused for the same
    conflicts. -/
theorem Policy.formats_agree {text : PolicyText} {xml yaml : List UInt8} (hxml : text.InXml xml)
    (hyaml : text.InYaml yaml) :
    (text.policy.validate = .ok () ∧ Policy.ofXml xml = .ok text.policy ∧
      Policy.ofYaml yaml = .ok text.policy) ∨
    ∃ c, text.policy.validate = .error c ∧ Policy.ofXml xml = .error (.conflict c) ∧
      Policy.ofYaml yaml = .error (.conflict c) := by
  obtain ⟨root, hparse, hroot⟩ := hxml
  obtain ⟨d, hparse', hd⟩ := hyaml
  rw [Policy.ofXml_eq hparse hroot, Policy.ofYaml_eq hparse' hd]
  cases text.policy.validate with
  | ok u => exact .inl ⟨rfl, rfl, rfl⟩
  | error c => exact .inr ⟨c, rfl, rfl, rfl⟩

/-- A policy with a flag that is left out and one that is not, and without some of the lists. -/
def PolicyText.sample : PolicyText :=
  ⟨[⟨"java", none, some "a & b"⟩], [], [⟨"a.b", none, [⟨"x.y", some false, none⟩]⟩], []⟩

/-- The sample in XML. -/
def PolicyText.sampleXml : String :=
  "<dependencies>
  <allowed><package name='a.b'><dependsOn includeSubPackages='0' package='x.y'/></package></allowed>
  <alwaysAllowed><dependsOn comment=\"a &amp; b\" package=\"java\"/></alwaysAllowed>
  <forbidden/>
</dependencies>"

def PolicyText.sampleRules : Element :=
  .mk "alwaysAllowed" [] [.mk "dependsOn" [("comment", "a & b"), ("package", "java")] []]

def PolicyText.sampleGroups : Element :=
  .mk "allowed" []
    [.mk "package" [("name", "a.b")]
      [.mk "dependsOn" [("includeSubPackages", "0"), ("package", "x.y")] []]]

theorem PolicyText.isPolicy_sample (attributes : List (String × String)) :
    (Element.mk "dependencies" attributes
      [sampleGroups, sampleRules, .mk "forbidden" [] []]).IsPolicy sample := by
  have hrules : Element.Section "alwaysAllowed" (Element.IsRule "dependsOn") sample.alwaysAllowed
      [sampleRules] := by
    refine .present rfl (.cons ⟨rfl, ⟨?_, ?_⟩⟩ .nil)
    · decide
    · simp [Element.attributes, Element.ruleAttributes, Element.commentAttribute]
  have hgroups : Element.Section "allowed" (Element.IsGroup "dependsOn") sample.allowed
      [sampleGroups] := by
    refine .present rfl (.cons ⟨rfl, ⟨?_, ?_⟩, .cons ⟨rfl, ⟨?_, ?_⟩⟩ .nil⟩ .nil)
    · decide
    · simp [Element.attributes, Element.groupAttributes, Element.commentAttribute]
    · decide
    · simp [Element.attributes, Element.ruleAttributes, Element.commentAttribute, Element.flagWords]
  have hforbidden : Element.Section "forbidden" (Element.IsGroup "notDependsOn") sample.forbidden
      [.mk "forbidden" [] []] := .present rfl .nil
  exact ⟨_, _, _, _, hrules, .absent, hgroups, hforbidden, List.Perm.swap _ _ _⟩

theorem PolicyText.inXml_sample : sample.InXml (Text.utf8 sampleXml) := by
  have hparse : (Xml.parse "dependencies" (Text.utf8 sampleXml)).toOption =
      some (.mk "dependencies" [] [sampleGroups, sampleRules, .mk "forbidden" [] []]) := by
    decide +kernel
  refine ⟨_, ?_, PolicyText.isPolicy_sample []⟩
  cases h : Xml.parse "dependencies" (Text.utf8 sampleXml) with
  | ok root =>
    rw [h] at hparse
    rw [Option.some.inj hparse]
  | error e =>
    rw [h] at hparse
    nomatch hparse

/-- The sample in YAML. -/
def PolicyText.sampleYaml : String :=
  "alwaysAllowed:
    - package: java
      comment: a & b
allowed:
    - name: a.b
      dependencies:
        - package: x.y
          includeSubPackages: false
"

theorem PolicyText.inYaml_sample : PolicyText.sample.InYaml (Text.utf8 PolicyText.sampleYaml) := by
  have hwritten : PolicyText.sampleYaml = Yaml.printRecord 4 PolicyText.sample.fields := by
    decide +kernel
  rw [hwritten]
  exact PolicyText.parse_fields (by decide +kernel)

theorem Policy.formats_agree_sample :
    PolicyText.sample.InXml (Text.utf8 PolicyText.sampleXml) ∧
      PolicyText.sample.InYaml (Text.utf8 PolicyText.sampleYaml) ∧
      Policy.ofXml (Text.utf8 PolicyText.sampleXml) = .ok PolicyText.sample.policy ∧
      Policy.ofYaml (Text.utf8 PolicyText.sampleYaml) = .ok PolicyText.sample.policy := by
  refine ⟨PolicyText.inXml_sample, PolicyText.inYaml_sample, ?_⟩
  rcases Policy.formats_agree PolicyText.inXml_sample PolicyText.inYaml_sample with h | ⟨c, h, -⟩
  · exact h.2
  · have hconflicts : PolicyText.sample.policy.conflicts.toList = [] := by decide +kernel
    rw [Policy.validate, hconflicts] at h
    cases h

end ClassAudit
