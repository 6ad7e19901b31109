import ClassAudit.Proofs.Policy.Form
import ClassAudit.Proofs.Yaml.Document

/-! # Policies read back

    What a document says about a policy can be written as one, and what is read there is the same.
    So a policy that is written is loaded back unchanged: flags and empty comments included, which
    are written and left out in different ways.

    A literal block is read back only if its text does not start with white space. Else it says by
    how much it is indented, and that does not hold for items of lists.
-/

namespace ClassAudit

open Yaml

/-! ### Writing what documents say -/

/-- A comment as a field, which may be left out. -/
def commentField (comment : Option String) : List (String × Value) :=
  comment.toList.map fun c : String => ("comment", .text c)

def RuleText.value (r : RuleText) : Value :=
  .record ([("package", .text r.package)] ++
    (r.includeSubPackages.toList.map fun b => ("includeSubPackages", .bool b)) ++
    commentField r.comment)

def GroupText.value (g : GroupText) : Value :=
  .record ([("name", .text g.name)] ++ commentField g.comment ++
    [("dependencies", .list (g.rules.map RuleText.value))])

/-- The fields of a policy. Empty lists are left out. -/
def PolicyText.fields (p : PolicyText) : List (String × Value) :=
  optionalList "alwaysAllowed" (p.alwaysAllowed.map RuleText.value) ++
    optionalList "alwaysForbidden" (p.alwaysForbidden.map RuleText.value) ++
    optionalList "allowed" (p.allowed.map GroupText.value) ++
    optionalList "forbidden" (p.forbidden.map GroupText.value)

/-- The texts of a rule. -/
def RuleText.texts (r : RuleText) : List ByteString :=
  r.package :: r.comment.toList.map ByteString.ofString

def GroupText.texts (g : GroupText) : List ByteString :=
  g.name :: g.comment.toList.map ByteString.ofString ++ g.rules.flatMap RuleText.texts

def PolicyText.texts (p : PolicyText) : List ByteString :=
  (p.alwaysAllowed ++ p.alwaysForbidden).flatMap RuleText.texts ++
    (p.allowed ++ p.forbidden).flatMap GroupText.texts

/-! ### What nodes show -/

variable {node : Node}

/-- A comment is shown by what says it. -/
theorem forall₂_commentField (comment : Option String) :
    List.Forall₂ (fun f f' => f.1 = f'.1 ∧ ∀ node, f.2.shownBy node → f'.2 node)
      (commentField comment)
      (comment.toList.map fun c : String => ("comment", fun node : Node => node.IsText c)) := by
  cases comment with
  | none => exact .nil
  | some c => exact .cons ⟨rfl, fun _ h => h⟩ .nil

theorem RuleText.isRule_of_shownBy {r : RuleText} (h : r.value.shownBy node) : node.IsRule r := by
  refine Value.isRecord_of_shownBy ?_ h
  refine List.rel_append (List.rel_append (.cons ⟨rfl, fun _ h => h⟩ .nil) ?_)
    (forall₂_commentField r.comment)
  cases r.includeSubPackages with
  | none => exact .nil
  | some b => exact .cons ⟨rfl, fun _ h => h⟩ .nil

theorem RuleText.isList_of_shownBy {rules : List RuleText}
    (h : (Value.list (rules.map RuleText.value)).shownBy node) : node.IsList Node.IsRule rules :=
  Value.isList_of_shownBy (fun _ _ => RuleText.isRule_of_shownBy) h

theorem GroupText.isGroup_of_shownBy {g : GroupText} (h : g.value.shownBy node) :
    node.IsGroup g := by
  refine ⟨_, .present _, Value.isRecord_of_shownBy ?_ h⟩
  exact List.rel_append
    (List.rel_append (.cons ⟨rfl, fun _ h => h⟩ .nil) (forall₂_commentField g.comment))
    (.cons ⟨rfl, fun _ h => RuleText.isList_of_shownBy h⟩ .nil)

theorem GroupText.isList_of_shownBy {groups : List GroupText}
    (h : (Value.list (groups.map GroupText.value)).shownBy node) :
    node.IsList Node.IsGroup groups :=
  Value.isList_of_shownBy (fun _ _ => GroupText.isGroup_of_shownBy) h

theorem exists_listField {α : Type} (name : String) (items : List α) {value : α → Value}
    {item : Node → α → Prop}
    (h : ∀ node, (Value.list (items.map value)).shownBy node → node.IsList item items) :
    ∃ fields, Node.ListField name item items fields ∧
      List.Forall₂ (fun f f' => f.1 = f'.1 ∧ ∀ node, f.2.shownBy node → f'.2 node)
        (optionalList name (items.map value)) fields := by
  cases items with
  | nil => exact ⟨[], .absent, .nil⟩
  | cons a items => exact ⟨_, .present _, .cons ⟨rfl, h⟩ .nil⟩

theorem PolicyText.isPolicy_of_shownBy {p : PolicyText} (h : (Value.record p.fields).shownBy node) :
    node.IsPolicy p := by
  obtain ⟨f₁, hf₁, hall₁⟩ := exists_listField "alwaysAllowed" p.alwaysAllowed
    fun _ => RuleText.isList_of_shownBy
  obtain ⟨f₂, hf₂, hall₂⟩ := exists_listField "alwaysForbidden" p.alwaysForbidden
    fun _ => RuleText.isList_of_shownBy
  obtain ⟨f₃, hf₃, hall₃⟩ := exists_listField "allowed" p.allowed
    fun _ => GroupText.isList_of_shownBy
  obtain ⟨f₄, hf₄, hall₄⟩ := exists_listField "forbidden" p.forbidden
    fun _ => GroupText.isList_of_shownBy
  refine ⟨f₁, f₂, f₃, f₄, hf₁, hf₂, hf₃, hf₄, Value.isRecord_of_shownBy ?_ h⟩
  exact List.rel_append (List.rel_append (List.rel_append hall₁ hall₂) hall₃) hall₄

/-! ### What is laid out -/

theorem laidField_comment {comment : Option String}
    (h : ∀ s ∈ comment.toList.map ByteString.ofString, showsIndentation s = true) (column : Nat) :
    ∀ f ∈ commentField comment, LaidField 4 column 0 f := by
  intro f hf
  obtain ⟨c, hc, rfl⟩ := List.mem_map.mp hf
  exact ⟨(by decide : isFieldName "comment" = true),
    laid_text (by decide) (h c (List.mem_map_of_mem hc))⟩

theorem RuleText.laid {r : RuleText} (h : ∀ s ∈ r.texts, showsIndentation s = true)
    (column : Nat) : LaidItem 4 column 0 r.value := by
  have hpackage := h r.package List.mem_cons_self
  have hcomment := fun s hs => h s (List.mem_cons_of_mem _ hs)
  refine ⟨_, by simp, rfl, ?_⟩
  intro f hf
  simp only [List.mem_append, List.mem_singleton, List.mem_map] at hf
  rcases hf with (rfl | ⟨b, -, rfl⟩) | hf
  · exact ⟨(by decide : isFieldName "package" = true), laid_text (by decide) hpackage⟩
  · exact ⟨(by decide : isFieldName "includeSubPackages" = true), laid_bool _⟩
  · exact laidField_comment hcomment _ f hf

theorem RuleText.laid_list {rules : List RuleText}
    (h : ∀ s ∈ rules.flatMap RuleText.texts, showsIndentation s = true) (column : Nat) :
    Laid 4 column 2 (.list (rules.map RuleText.value)) := by
  refine Yaml.laid_list (by decide) fun v hv => ?_
  obtain ⟨r, hr, rfl⟩ := List.mem_map.mp hv
  exact RuleText.laid (fun s hs => h s (List.mem_flatMap.mpr ⟨r, hr, hs⟩)) _

theorem GroupText.laid {g : GroupText} (h : ∀ s ∈ g.texts, showsIndentation s = true)
    (column : Nat) : LaidItem 4 column 2 g.value := by
  have hname := h g.name List.mem_cons_self
  have hcomment : ∀ s ∈ g.comment.toList.map ByteString.ofString, showsIndentation s = true :=
    fun s hs => h s (List.mem_cons_of_mem _ (List.mem_append_left _ hs))
  have hrules : ∀ s ∈ g.rules.flatMap RuleText.texts, showsIndentation s = true :=
    fun s hs => h s (List.mem_cons_of_mem _ (List.mem_append_right _ hs))
  refine ⟨_, by simp, rfl, ?_⟩
  intro f hf
  simp only [List.mem_append, List.mem_singleton] at hf
  rcases hf with (rfl | hf) | rfl
  · exact ⟨(by decide : isFieldName "name" = true),
      (laid_text (by decide) hname).mono (by decide)⟩
  · exact (laidField_comment hcomment _ f hf).mono (by decide)
  · exact ⟨(by decide : isFieldName "dependencies" = true), RuleText.laid_list hrules _⟩

theorem GroupText.laid_list {groups : List GroupText}
    (h : ∀ s ∈ groups.flatMap GroupText.texts, showsIndentation s = true) (column : Nat) :
    Laid 4 column 4 (.list (groups.map GroupText.value)) := by
  refine Yaml.laid_list (by decide) fun v hv => ?_
  obtain ⟨g, hg, rfl⟩ := List.mem_map.mp hv
  exact GroupText.laid (fun s hs => h s (List.mem_flatMap.mpr ⟨g, hg, hs⟩)) _

theorem laidField_optionalList {name : String} {items : List Value} {height : Nat}
    (hname : isFieldName name = true) (h : Laid 4 0 height (.list items)) :
    ∀ f ∈ optionalList name items, LaidField 4 0 height f := by
  intro f hf
  unfold optionalList at hf
  split at hf
  · nomatch hf
  · rw [List.mem_singleton.mp hf]
    exact ⟨hname, h⟩

theorem PolicyText.laidField {p : PolicyText} (h : ∀ s ∈ p.texts, showsIndentation s = true) :
    ∀ f ∈ p.fields, LaidField 4 0 4 f := by
  simp only [PolicyText.texts, List.flatMap_append, List.mem_append] at h
  intro f hf
  simp only [PolicyText.fields, List.mem_append] at hf
  rcases hf with ((hf | hf) | hf) | hf
  · refine (laidField_optionalList (by decide) (RuleText.laid_list (fun s hs => ?_) 0) f hf).mono
      (by decide)
    exact h s (.inl (.inl hs))
  · refine (laidField_optionalList (by decide) (RuleText.laid_list (fun s hs => ?_) 0) f hf).mono
      (by decide)
    exact h s (.inl (.inr hs))
  · refine laidField_optionalList (by decide) (GroupText.laid_list (fun s hs => ?_) 0) f hf
    exact h s (.inr (.inl hs))
  · refine laidField_optionalList (by decide) (GroupText.laid_list (fun s hs => ?_) 0) f hf
    exact h s (.inr (.inr hs))

theorem PolicyText.parse_fields {p : PolicyText} (h : ∀ s ∈ p.texts, showsIndentation s = true) :
    ∃ d, Document.parse (Text.utf8 (printRecord 4 p.fields)) = .ok (some d) ∧
      d.root.IsPolicy p := by
  obtain ⟨root, depth, hparse, hshown⟩ := parse_printRecord (PolicyText.laidField h) (by decide)
  exact ⟨_, hparse, PolicyText.isPolicy_of_shownBy hshown⟩

/-! ### What is written of a policy -/

/-- A comment that is left out if it is empty. -/
def optionalComment (comment : String) : Option String :=
  if comment = "" then none else some comment

theorem getD_optionalComment (comment : String) : (optionalComment comment).getD "" = comment := by
  unfold optionalComment
  split
  · next h => rw [h]; rfl
  · rfl

/-- What is written of a rule. -/
def Rule.written (r : Rule) : RuleText :=
  ⟨r.package, some r.includeSubPackages, optionalComment r.comment⟩

def RuleGroup.written (g : RuleGroup) : GroupText :=
  ⟨g.name, optionalComment g.comment, g.dependencies.map Rule.written⟩

def Policy.written (p : Policy) : PolicyText :=
  ⟨p.alwaysAllowed.map Rule.written, p.alwaysForbidden.map Rule.written,
    p.allowed.map RuleGroup.written, p.forbidden.map RuleGroup.written⟩

/-! Nothing is lost: what is written says the policy. -/

theorem Rule.rule_written (r : Rule) : r.written.rule = r := by
  obtain ⟨package, flag, comment⟩ := r
  simp [Rule.written, RuleText.rule, getD_optionalComment]

theorem RuleGroup.group_written (g : RuleGroup) : g.written.group = g := by
  obtain ⟨name, comment, rules⟩ := g
  simp [RuleGroup.written, GroupText.group, getD_optionalComment, Function.comp_def,
    Rule.rule_written]

theorem Policy.policy_written (p : Policy) : p.written.policy = p := by
  obtain ⟨alwaysAllowed, alwaysForbidden, allowed, forbidden⟩ := p
  simp [Policy.written, PolicyText.policy, Function.comp_def, Rule.rule_written,
    RuleGroup.group_written]

theorem ByteString.isEmpty_ofString (s : String) : (s : ByteString).isEmpty = decide (s = "") := by
  have hempty : (ofString s).bytes = [] ↔ s = "" := by
    have hnil : (ofString "").bytes = [] := by
      show Text.utf8 "" = []
      rw [Text.utf8_eq_flatMap]
      rfl
    rw [← ByteString.ofString_inj, ← hnil]
    exact ⟨fun h => congrArg ByteString.mk h, fun h => congrArg ByteString.bytes h⟩
  rw [isEmpty, Bool.eq_iff_iff, List.isEmpty_iff, decide_eq_true_eq, hempty]

theorem optionalText_comment (comment : String) :
    optionalText "comment" comment = commentField (optionalComment comment) := by
  unfold optionalText optionalComment commentField
  rw [ByteString.isEmpty_ofString]
  by_cases h : comment = "" <;> simp [h]

theorem Rule.value_written (r : Rule) : r.written.value = r.value := by
  rw [Rule.value, optionalText_comment]
  rfl

theorem RuleGroup.value_written (g : RuleGroup) : g.written.value = g.value := by
  have hrules : (g.dependencies.map Rule.written).map RuleText.value =
      g.dependencies.map Rule.value := by
    rw [List.map_map]
    exact List.map_congr_left fun r _ => Rule.value_written r
  rw [RuleGroup.value, optionalText_comment, ← hrules]
  rfl

theorem Policy.fields_written (p : Policy) : p.written.fields = p.fields := by
  simp only [PolicyText.fields, Policy.written, Policy.fields, List.map_map, Function.comp_def,
    Rule.value_written, RuleGroup.value_written]

/-! ### Reading back -/

/-- A document that says a policy is loaded as the policy, unless that has conflicts. -/
theorem Policy.ofYaml_eq {bytes : List UInt8} {d : Document} {text : PolicyText}
    (hparse : Document.parse bytes = .ok (some d)) (hd : d.root.IsPolicy text) :
    Policy.ofYaml bytes = match text.policy.validate with
      | .ok () => .ok text.policy
      | .error c => .error (.conflict c) := by
  rw [Policy.ofYaml, decode_eq hparse (decodes_policy hd)]
  rfl

/-- A policy without conflicts is loaded back from its document unchanged, if each text that is
    written shows its indentation. -/
theorem Policy.ofYaml_toYaml {p : Policy} (hvalid : p.validate = .ok ())
    (htexts : ∀ s ∈ p.written.texts, showsIndentation s = true) :
    Policy.ofYaml (Text.utf8 p.toYaml) = .ok p := by
  obtain ⟨d, hparse, hd⟩ := PolicyText.parse_fields htexts
  rw [Policy.fields_written] at hparse
  have hread : Policy.ofYaml (Text.utf8 p.toYaml) = _ := Policy.ofYaml_eq hparse hd
  rw [hread, Policy.policy_written, hvalid]

/-- A policy with texts of all forms: words and flags that have to be quoted, bytes that are no
    text, lines, and a rule for a single package. -/
def Policy.sample : Policy :=
  ⟨[⟨"java.lang", false, ""⟩], [⟨⟨[0xff, 0x2e]⟩, true, "yes"⟩],
    [⟨"com.example", "keep:\n  this # as it is\n", [⟨"true", true, "- no 'item'"⟩]⟩],
    [⟨"com.other", "", []⟩]⟩

theorem Policy.ofYaml_toYaml_sample :
    Policy.sample.validate = .ok () ∧
      (∀ s ∈ Policy.sample.written.texts, showsIndentation s = true) ∧
      Policy.ofYaml (Text.utf8 Policy.sample.toYaml) = .ok Policy.sample := by
  have hconflicts : Policy.sample.conflicts.toList = [] := by decide +kernel
  have hvalid : Policy.sample.validate = .ok () := by rw [Policy.validate, hconflicts]
  have htexts : ∀ s ∈ Policy.sample.written.texts, showsIndentation s = true := by decide +kernel
  exact ⟨hvalid, htexts, Policy.ofYaml_toYaml hvalid htexts⟩

-- A comment that starts with a blank and has a second line is not read back.
example : (Policy.ofYaml (Text.utf8
    (Policy.toYaml ⟨[⟨"java.lang", true, " a\nb"⟩], [], [], []⟩))).toOption.map
      (fun p => p.alwaysAllowed.map Rule.comment) ≠ some [" a\nb"] := by decide +kernel

end ClassAudit
