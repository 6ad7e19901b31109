import ClassAudit.Policy.Yaml
import ClassAudit.Proofs.Yaml.Decode

/-! # Policies as documents

    What a document says about a policy: lists of rules and of groups, in which some texts and flags
    may be left out. A mapping says so by its entries, in whatever order they stand, and is decoded
    into the policy in which what is left out has its default.
-/

namespace ClassAudit

open Yaml

/-! ### What documents say -/

/-- A rule in a document. -/
structure RuleText where
  package : ByteString
  includeSubPackages : Option Bool
  comment : Option String

/-- The rule, which covers the packages below unless it says otherwise. -/
def RuleText.rule (r : RuleText) : Rule :=
  ⟨r.package, r.includeSubPackages.getD true, r.comment.getD ""⟩

structure GroupText where
  name : ByteString
  comment : Option String
  rules : List RuleText

def GroupText.group (g : GroupText) : RuleGroup :=
  ⟨g.name, g.comment.getD "", g.rules.map RuleText.rule⟩

structure PolicyText where
  alwaysAllowed : List RuleText
  alwaysForbidden : List RuleText
  allowed : List GroupText
  forbidden : List GroupText

def PolicyText.policy (p : PolicyText) : Policy :=
  ⟨p.alwaysAllowed.map RuleText.rule, p.alwaysForbidden.map RuleText.rule,
    p.allowed.map GroupText.group, p.forbidden.map GroupText.group⟩

/-! ### Mappings -/

namespace Yaml.Node

/-- A mapping that is a rule. -/
def IsRule (node : Node) (r : RuleText) : Prop :=
  node.IsRecord ([("package", (·.IsText r.package))] ++
    (r.includeSubPackages.toList.map fun b => ("includeSubPackages", (·.IsBool b))) ++
    (r.comment.toList.map fun c => ("comment", (·.IsText c))))

/-- A field with a list. It may be left out if the list is empty. -/
inductive ListField {α : Type} (name : String) (item : Node → α → Prop) :
    List α → List (String × (Node → Prop)) → Prop
  | present (items : List α) : ListField name item items [(name, (·.IsList item items))]
  | absent : ListField name item [] []

def IsGroup (node : Node) (g : GroupText) : Prop :=
  ∃ rules, ListField "dependencies" IsRule g.rules rules ∧
    node.IsRecord ([("name", (·.IsText g.name))] ++
      (g.comment.toList.map fun c => ("comment", (·.IsText c))) ++ rules)

def IsPolicy (node : Node) (p : PolicyText) : Prop :=
  ∃ alwaysAllowed alwaysForbidden allowed forbidden,
    ListField "alwaysAllowed" IsRule p.alwaysAllowed alwaysAllowed ∧
    ListField "alwaysForbidden" IsRule p.alwaysForbidden alwaysForbidden ∧
    ListField "allowed" IsGroup p.allowed allowed ∧
    ListField "forbidden" IsGroup p.forbidden forbidden ∧
    node.IsRecord (alwaysAllowed ++ alwaysForbidden ++ allowed ++ forbidden)

end Yaml.Node

/-! ### Rules -/

variable {d : Document} {node : Node}

/-- The fields that a rule says. -/
def RuleText.setters (r : RuleText) : List (Setter Rule) :=
  [⟨"package", (·.IsText r.package), fun q => { q with package := r.package }⟩] ++
    (r.includeSubPackages.toList.map fun b =>
      ⟨"includeSubPackages", (·.IsBool b), fun q => { q with includeSubPackages := b }⟩) ++
    (r.comment.toList.map fun c =>
      ⟨"comment", (·.IsText c), fun q => { q with comment := c }⟩)

theorem RuleText.decodedBy (r : RuleText) : ∀ p ∈ r.setters, p.DecodedBy Rule.fieldShape d := by
  have hnodup : (Rule.fieldShape.fields.map Yaml.Field.name).Nodup := by decide
  intro p hp
  simp only [RuleText.setters, List.mem_append, List.mem_singleton, List.mem_map] at hp
  rcases hp with (rfl | ⟨b, -, rfl⟩) | ⟨c, -, rfl⟩
  · exact Setter.decodedBy_of_mem hnodup (fun s q => { q with package := s })
      (.head _) fun node h => decodes_readBytes h
  · exact Setter.decodedBy_of_mem hnodup (fun s q => { q with includeSubPackages := s })
      (.tail _ (.head _)) fun node h => decodes_readBool h
  · exact Setter.decodedBy_of_mem hnodup (fun s q => { q with comment := s })
      (.tail _ (.tail _ (.head _))) fun node h => decodes_readText h

theorem RuleText.nodup (r : RuleText) : (r.setters.map Setter.name).Nodup := by
  obtain ⟨package, flag, comment⟩ := r
  cases flag <;> cases comment <;> simp [RuleText.setters]

/-- The fields of a rule do not depend on each other. -/
theorem RuleText.comm (r : RuleText) : ∀ p ∈ r.setters, ∀ q ∈ r.setters, p.name ≠ q.name →
    ∀ s, q.update (p.update s) = p.update (q.update s) := by
  intro p hp q hq hne s
  simp only [RuleText.setters, List.mem_append, List.mem_singleton, List.mem_map] at hp hq
  rcases hp with (rfl | ⟨b, -, rfl⟩) | ⟨c, -, rfl⟩ <;>
    rcases hq with (rfl | ⟨b', -, rfl⟩) | ⟨c', -, rfl⟩ <;>
      first | rfl | exact absurd rfl hne

theorem decodes_rule {r : RuleText} (h : node.IsRule r) (kind : String) :
    Decodes (Rule.read kind d node) (some r.rule) := by
  have hsetters : node.IsRecord (r.setters.map fun p => (p.name, p.shows)) := by
    simpa [Node.IsRule, RuleText.setters, Function.comp_def] using h
  have hall : Setter.updateAll r.setters ⟨"", true, ""⟩ = r.rule := by
    obtain ⟨package, flag, comment⟩ := r
    cases flag <;> cases comment <;> rfl
  have hfields : Decodes (Rule.fieldShape.read ⟨"", true, ""⟩ d node) _ :=
    Shape.decodes_read rfl r.decodedBy r.nodup r.comm hsetters _
  rw [hall] at hfields
  obtain ⟨line, entries, rfl, hkeys⟩ := hsetters.exists_entries
  have hknown : Rule.unknownKey? (.mapping line "!!map" entries) = none := by
    rw [Rule.unknownKey?, List.find?_eq_none]
    intro k hk
    have hmem : k.text ∈ r.setters.map Setter.name := by simpa using hkeys k hk
    have hsub : ∀ name ∈ r.setters.map Setter.name, name ∈ Rule.keys := by
      intro name hname
      simp only [RuleText.setters, List.map_append, List.map_cons, List.map_nil, List.map_map,
        List.mem_append, List.mem_singleton, List.mem_map] at hname
      rcases hname with (rfl | ⟨b, -, rfl⟩) | ⟨c, -, rfl⟩ <;> simp [Rule.keys]
    simpa using hsub _ hmem
  unfold Rule.read Shape.read
  refine decodes_visit rfl ?_
  show Decodes (Rule.readWhole d (.mapping line "!!map" entries)) _
  rw [Rule.readWhole, hknown]
  exact decodes_apart hfields

theorem decodes_rules {rules : List RuleText} (h : node.IsList Node.IsRule rules) (kind : String) :
    Decodes (Rule.readAll kind d node) (some (rules.map RuleText.rule)) :=
  decodes_readList RuleText.rule (fun _ _ hr => decodes_rule hr kind) h

/-! ### Groups -/

/-- A field with a list, which may be left out. -/
def Yaml.Setter.list {σ α : Type} (name : String) (item : Node → α → Prop) (items : List α)
    (present : Bool) (update : σ → σ) : List (Setter σ) :=
  if present then [⟨name, (·.IsList item items), update⟩] else []

theorem Yaml.Setter.updateAll_list {σ α : Type} {name : String} {item : Node → α → Prop}
    {items : List α} {update : σ → σ} {s : σ} (present : Bool)
    (h : present = false → update s = s) :
    Setter.updateAll (Setter.list name item items present update) s = update s := by
  cases present with
  | true => rfl
  | false => exact (h rfl).symm

theorem Yaml.Node.ListField.exists_list {α σ : Type} {name : String} {item : Node → α → Prop}
    {items : List α} {fields : List (String × (Node → Prop))}
    (h : Node.ListField name item items fields) (update : σ → σ) :
    ∃ present : Bool, (present = false → items = []) ∧
      (Setter.list name item items present update).map (fun p => (p.name, p.shows)) = fields := by
  cases h with
  | present items => exact ⟨true, by simp, rfl⟩
  | absent => exact ⟨false, fun _ => rfl, rfl⟩

def GroupText.setters (g : GroupText) (present : Bool) : List (Setter RuleGroup) :=
  [⟨"name", (·.IsText g.name), fun q => { q with name := g.name }⟩] ++
    (g.comment.toList.map fun c =>
      ⟨"comment", (·.IsText c), fun q => { q with comment := c }⟩) ++
    Setter.list "dependencies" Node.IsRule g.rules present
      fun q => { q with dependencies := g.rules.map RuleText.rule }

theorem decodes_group {g : GroupText} (h : node.IsGroup g) (kind : String) :
    Decodes ((RuleGroup.shape kind).read ⟨"", "", []⟩ d node) (some g.group) := by
  obtain ⟨rules, hrules, hrecord⟩ := h
  obtain ⟨present, hpresent, hfields⟩ := hrules.exists_list
    fun q : RuleGroup => { q with dependencies := g.rules.map RuleText.rule }
  have hsetters : node.IsRecord ((g.setters present).map fun p => (p.name, p.shows)) := by
    rw [GroupText.setters, List.map_append, hfields]
    simpa [Function.comp_def] using hrecord
  have hnames : ((RuleGroup.shape kind).fields.map Yaml.Field.name).Nodup := by
    show ["name", "comment", "dependencies"].Nodup
    decide
  have hdecoded : ∀ p ∈ g.setters present, p.DecodedBy (RuleGroup.shape kind) d := by
    intro p hp
    simp only [GroupText.setters, Setter.list, List.mem_append, List.mem_singleton, List.mem_map,
      List.mem_ite_nil_right] at hp
    rcases hp with (rfl | ⟨c, -, rfl⟩) | ⟨-, rfl⟩
    · exact Setter.decodedBy_of_mem hnames (fun s q => { q with name := s })
        (.head _) fun node h => decodes_readBytes h
    · exact Setter.decodedBy_of_mem hnames (fun s q => { q with comment := s })
        (.tail _ (.head _)) fun node h => decodes_readText h
    · exact Setter.decodedBy_of_mem hnames (fun rules q => { q with dependencies := rules })
        (.tail _ (.tail _ (.head _))) fun node h => decodes_rules h kind
  have hnodup : ((g.setters present).map Setter.name).Nodup := by
    obtain ⟨name, comment, rules⟩ := g
    cases comment <;> cases present <;> simp [GroupText.setters, Setter.list]
  have hcomm : ∀ p ∈ g.setters present, ∀ q ∈ g.setters present, p.name ≠ q.name →
      ∀ s, q.update (p.update s) = p.update (q.update s) := by
    intro p hp q hq hne s
    simp only [GroupText.setters, Setter.list, List.mem_append, List.mem_singleton, List.mem_map,
      List.mem_ite_nil_right] at hp hq
    rcases hp with (rfl | ⟨c, -, rfl⟩) | ⟨-, rfl⟩ <;>
      rcases hq with (rfl | ⟨c', -, rfl⟩) | ⟨-, rfl⟩ <;>
        first | rfl | exact absurd rfl hne
  have hall : Setter.updateAll (g.setters present) ⟨"", "", []⟩ = g.group := by
    obtain ⟨name, comment, rules⟩ := g
    rw [GroupText.setters, Setter.updateAll_append,
      Setter.updateAll_list present (fun hb => by
        obtain rfl : rules = [] := hpresent hb
        cases comment <;> rfl)]
    cases comment <;> rfl
  rw [← hall]
  exact Shape.decodes_read rfl hdecoded hnodup hcomm hsetters _

theorem decodes_groups {groups : List GroupText} (h : node.IsList Node.IsGroup groups)
    (kind : String) :
    Decodes (RuleGroup.readAll kind d node) (some (groups.map GroupText.group)) :=
  decodes_readList GroupText.group (fun _ _ hg => decodes_group hg kind) h

/-! ### Policies -/

def PolicyText.setters (p : PolicyText) (b₁ b₂ b₃ b₄ : Bool) : List (Setter Policy) :=
  Setter.list "alwaysAllowed" Node.IsRule p.alwaysAllowed b₁
      (fun q => { q with alwaysAllowed := p.alwaysAllowed.map RuleText.rule }) ++
    Setter.list "alwaysForbidden" Node.IsRule p.alwaysForbidden b₂
      (fun q => { q with alwaysForbidden := p.alwaysForbidden.map RuleText.rule }) ++
    Setter.list "allowed" Node.IsGroup p.allowed b₃
      (fun q => { q with allowed := p.allowed.map GroupText.group }) ++
    Setter.list "forbidden" Node.IsGroup p.forbidden b₄
      (fun q => { q with forbidden := p.forbidden.map GroupText.group })

theorem decodes_policy {p : PolicyText} (h : node.IsPolicy p) :
    Decodes (Policy.shape.read .empty d node) (some p.policy) := by
  obtain ⟨f₁, f₂, f₃, f₄, h₁, h₂, h₃, h₄, hrecord⟩ := h
  obtain ⟨b₁, hb₁, hf₁⟩ := h₁.exists_list
    fun q : Policy => { q with alwaysAllowed := p.alwaysAllowed.map RuleText.rule }
  obtain ⟨b₂, hb₂, hf₂⟩ := h₂.exists_list
    fun q : Policy => { q with alwaysForbidden := p.alwaysForbidden.map RuleText.rule }
  obtain ⟨b₃, hb₃, hf₃⟩ := h₃.exists_list
    fun q : Policy => { q with allowed := p.allowed.map GroupText.group }
  obtain ⟨b₄, hb₄, hf₄⟩ := h₄.exists_list
    fun q : Policy => { q with forbidden := p.forbidden.map GroupText.group }
  have hsetters : node.IsRecord ((p.setters b₁ b₂ b₃ b₄).map fun p => (p.name, p.shows)) := by
    rw [PolicyText.setters, List.map_append, List.map_append, List.map_append, hf₁, hf₂, hf₃, hf₄]
    exact hrecord
  have hnames : (Policy.shape.fields.map Yaml.Field.name).Nodup := by
    show ["alwaysAllowed", "alwaysForbidden", "allowed", "forbidden"].Nodup
    decide
  have hdecoded : ∀ q ∈ p.setters b₁ b₂ b₃ b₄, q.DecodedBy Policy.shape d := by
    intro q hq
    simp only [PolicyText.setters, Setter.list, List.mem_append, List.mem_singleton,
      List.mem_ite_nil_right] at hq
    rcases hq with ((⟨-, rfl⟩ | ⟨-, rfl⟩) | ⟨-, rfl⟩) | ⟨-, rfl⟩
    · exact Setter.decodedBy_of_mem hnames (fun rules q => { q with alwaysAllowed := rules })
        (.head _) fun node h => decodes_rules h _
    · exact Setter.decodedBy_of_mem hnames
        (fun rules q => { q with alwaysForbidden := rules })
        (.tail _ (.head _)) fun node h => decodes_rules h _
    · exact Setter.decodedBy_of_mem hnames (fun groups q => { q with allowed := groups })
        (.tail _ (.tail _ (.head _))) fun node h => decodes_groups h _
    · exact Setter.decodedBy_of_mem hnames (fun groups q => { q with forbidden := groups })
        (.tail _ (.tail _ (.tail _ (.head _)))) fun node h => decodes_groups h _
  have hnodup : ((p.setters b₁ b₂ b₃ b₄).map Setter.name).Nodup := by
    cases b₁ <;> cases b₂ <;> cases b₃ <;> cases b₄ <;> simp [PolicyText.setters, Setter.list]
  have hcomm : ∀ q ∈ p.setters b₁ b₂ b₃ b₄, ∀ q' ∈ p.setters b₁ b₂ b₃ b₄, q.name ≠ q'.name →
      ∀ s, q'.update (q.update s) = q.update (q'.update s) := by
    intro q hq q' hq' hne s
    simp only [PolicyText.setters, Setter.list, List.mem_append, List.mem_singleton,
      List.mem_ite_nil_right] at hq hq'
    rcases hq with ((⟨-, rfl⟩ | ⟨-, rfl⟩) | ⟨-, rfl⟩) | ⟨-, rfl⟩ <;>
      rcases hq' with ((⟨-, rfl⟩ | ⟨-, rfl⟩) | ⟨-, rfl⟩) | ⟨-, rfl⟩ <;> rfl
  have hall : Setter.updateAll (p.setters b₁ b₂ b₃ b₄) .empty = p.policy := by
    rw [PolicyText.setters, Setter.updateAll_append, Setter.updateAll_append, Setter.updateAll_append,
      Setter.updateAll_list b₁ (fun hb => by rw [hb₁ hb]; rfl),
      Setter.updateAll_list b₂ (fun hb => by rw [hb₂ hb]; rfl),
      Setter.updateAll_list b₃ (fun hb => by rw [hb₃ hb]; rfl),
      Setter.updateAll_list b₄ (fun hb => by rw [hb₄ hb]; rfl)]
    rfl
  rw [← hall]
  exact Shape.decodes_read rfl hdecoded hnodup hcomm hsetters _

end ClassAudit
