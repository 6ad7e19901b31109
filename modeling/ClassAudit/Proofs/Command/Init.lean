import ClassAudit.Command.Run
import ClassAudit.Proofs.Files.Writing

/-! # What setting up a project leaves behind

    Setting up a project writes at most two files, the project file and then a policy, and each only
    where there is nothing. So no file that exists is touched, and the project file holds the
    project whatever path the answers give the policy. Nothing is undone, and so the project file
    stays if it is the policy that cannot be written. All other failures leave the files as they
    are.
-/

namespace ClassAudit

/-- Whether a policy to start from could not be written. -/
def Failure.isPolicyWrite : Failure → Bool
  | .within context (.file _) => context == "write policy"
  | _ => false

namespace Command

variable {s : Surroundings} {t : FileTree} {args : List String}

/-! ### Answers -/

/-- The directory that arguments name. -/
def initDirectory : List String → Path
  | [directory] => directory
  | _ => Path.here

/-- The path of the project file in the directory that arguments name. -/
def projectPath (args : List String) : Path :=
  Path.join [initDirectory args, Config.defaultFile]

/-- The project that the answers describe, if there are answers and they describe one. -/
def answeredProject? (s : Surroundings) : Option Config :=
  match s.ask (Question.ofChecks Check.all) with
  | .error _ => none
  | .ok answers => (configure answers (Question.ofChecks Check.all) .empty).toOption

def policyPath? (s : Surroundings) (args : List String) : Option Path :=
  match s.ask (Question.ofChecks Check.all) with
  | .error _ => none
  | .ok answers =>
    some (Path.resolve (initDirectory args) (Text.trim ((answers.lookup "policy").getD "")))

theorem policy_addCalls (entries : List String) (c : Config) :
    (Config.addCalls entries c).1.policy = c.policy := by
  induction entries generalizing c with
  | nil => rfl
  | cons entry entries ih =>
    rw [Config.addCalls]
    split
    · rfl
    · rw [ih]

/-- Only a text that is set for the policy changes it. -/
theorem policy_set (c : Config) (key text : String) :
    (c.set key text).1.policy =
      if key = "policy" ∧ Text.trim text ≠ "" then (Text.trim text : Path) else c.policy := by
  have hkey : ∀ setting, Config.Setting.ofKey? key = some setting → setting.key = key := by
    intro setting h
    simpa using List.find?_some h
  unfold Config.set
  by_cases htext : Text.trim text = ""
  · simp [htext]
  · simp only [htext, if_false, ne_eq, not_false_eq_true, and_true]
    cases hsetting : Config.Setting.ofKey? key with
    | none =>
      have hne : key ≠ "policy" := by
        rintro rfl
        nomatch hsetting
      simp [hne]
    | some setting =>
      have heq := hkey setting hsetting
      cases setting with
      | policy => simp [← heq, Config.Setting.key]
      | classes => simp [← heq, Config.Setting.key]
      | testClasses => simp [← heq, Config.Setting.key]
      | coverageSuffix => simp [← heq, Config.Setting.key]
      | forbiddenCalls => simp [← heq, Config.Setting.key, policy_addCalls]

/-- The policy of a project is the answer to the question for it. -/
theorem policy_configure {answers : List (String × String)} {questions : List Question}
    {c c' : Config} (h : configure answers questions c = .ok c') :
    c'.policy =
      if (∃ q ∈ questions, q.key = "policy") ∧ Text.trim ((answers.lookup "policy").getD "") ≠ ""
      then (Text.trim ((answers.lookup "policy").getD "") : Path) else c.policy := by
  induction questions generalizing c with
  | nil =>
    obtain rfl := Except.ok.inj h
    simp
  | cons q questions ih =>
    rw [configure] at h
    split at h
    -- A later question for the policy sets it to the same answer.
    · rename_i c₁ hset
      have hpolicy := policy_set c q.key ((answers.lookup q.key).getD "")
      rw [hset] at hpolicy
      rw [ih h, hpolicy]
      by_cases hkey : q.key = "policy"
      · simp only [hkey, List.mem_cons, exists_eq_or_imp, true_or, true_and]
        split <;> split <;> simp_all
      · simp [hkey]
    · cases h

theorem policy_of_answers {answers : List (String × String)} {c : Config}
    (h : configure answers (Question.ofChecks Check.all) .empty = .ok c) :
    c.policy = (Text.trim ((answers.lookup "policy").getD "") : Path) := by
  have hasked : ∃ q ∈ Question.ofChecks Check.all, q.key = "policy" := by decide
  rw [policy_configure h]
  by_cases hanswer : Text.trim ((answers.lookup "policy").getD "") = ""
  · simp [hanswer, Config.empty]
  · simp [hanswer, hasked]

/-! ### What the command can do -/

/-- How the files are after a policy to start from has been asked for: as they are, whether or not
    that is a failure, or with a new file that holds the policy. -/
inductive Starts (t : FileTree) (path : Path) : FileTree → Option Failure → Prop
  | none : Starts t path t none
  | failed {e : Failure} (h : e.isPolicyWrite = true) : Starts t path t (some e)
  | written {t' : FileTree} (hnew : t.contains path = false)
    (h : t.write path (Text.utf8 Policy.starter.toYaml) = .ok t') : Starts t path t' none

theorem starts_writeStarter (directory : Path) (c : Config) {o : Outcome} (htree : o.tree = t)
    (h : o.failure = none) :
    Starts t (Path.resolve directory c.policy) (writeStarter directory c o).tree
      (writeStarter directory c o).failure := by
  subst htree
  have hsame : Starts o.tree (Path.resolve directory c.policy) o.tree o.failure := by
    rw [h]
    exact .none
  unfold writeStarter
  split
  · exact hsame
  · dsimp only
    split
    · exact hsame
    · rename_i e hstat
      split
      · exact hsame
      · split
        · exact hsame
        · split
          · exact .failed rfl
          · rename_i t hwrite
            show Starts _ _ t o.failure
            rw [h]
            refine .written ?_ hwrite
            rw [FileTree.contains, hstat]

/-- How the files are after the command: as they are, which is a failure, or with a new file that
    holds the project, and then possibly one for the policy. -/
inductive Sets (s : Surroundings) (t : FileTree) (directory : Path) :
    FileTree → Option Failure → Prop
  | failed {e : Failure} (h : e.isPolicyWrite = false) : Sets s t directory t (some e)
  | created {answers : List (String × String)} {c : Config} {t₁ t' : FileTree}
    {failure : Option Failure} (hask : s.ask (Question.ofChecks Check.all) = .ok answers)
    (hproject : configure answers (Question.ofChecks Check.all) .empty = .ok c)
    (hnew : t.contains (Path.join [directory, Config.defaultFile]) = false)
    (hwrite : t.write (Path.join [directory, Config.defaultFile]) (Text.utf8 c.toYaml) = .ok t₁)
    (hstarts : Starts t₁ (Path.resolve directory c.policy) t' failure) :
    Sets s t directory t' failure

theorem write_of_save {path : Path} {c : Config} {t' : FileTree} (h : c.save t path = .ok t') :
    t.write path (Text.utf8 c.toYaml) = .ok t' := by
  unfold Config.save at h
  split at h
  · cases h
  · exact FileTree.write_of_mapError h

theorem isPolicyWrite_save {path : Path} {c : Config} {e : Failure}
    (h : c.save t path = .error e) : e.isPolicyWrite = false := by
  unfold Config.save at h
  split at h
  · obtain rfl := Except.error.inj h
    rfl
  · cases hwrite : t.write path (Text.utf8 c.toYaml) with
    | ok t => rw [hwrite] at h; cases h
    | error fe =>
      rw [hwrite] at h
      obtain rfl := Except.error.inj h
      -- The context of this failure is another one, whatever the path in it.
      rw [Failure.isPolicyWrite, beq_eq_false_iff_ne]
      intro heq
      have hhead := congrArg (fun text => text.toList.head?) heq
      simp at hhead

theorem sets_initIn (s : Surroundings) (t : FileTree) (directory : Path) :
    Sets s t directory (initIn s t directory).tree (initIn s t directory).failure := by
  unfold initIn
  dsimp only
  split
  · exact .failed rfl
  · rename_i hnew
    split
    · exact .failed rfl
    · rename_i answers hask
      split
      · exact .failed rfl
      · rename_i c hproject
        rw [createProject]
        split
        · rename_i e hsave
          exact .failed (isPolicyWrite_save hsave)
        · rename_i t₁ hsave
          refine .created hask hproject (by simpa using hnew) (write_of_save hsave) ?_
          exact starts_writeStarter directory c rfl rfl

theorem sets_run (s : Surroundings) (t : FileTree) (args : List String) :
    Sets s t (initDirectory args) (init.run s t args).tree (init.run s t args).failure := by
  match args with
  | [] => exact sets_initIn s t Path.here
  | [directory] => exact sets_initIn s t directory
  | _ :: _ :: _ => exact .failed rfl

theorem answeredProject?_eq {answers : List (String × String)} {c : Config}
    (hask : s.ask (Question.ofChecks Check.all) = .ok answers)
    (hproject : configure answers (Question.ofChecks Check.all) .empty = .ok c) :
    answeredProject? s = some c := by
  rw [answeredProject?, hask]
  simp [hproject, Except.toOption]

/-! ### Main statements -/

/-- A failure leaves the files as they are, unless a policy to start from cannot be written. Then
    there is a new file with the project, and nothing else has changed. -/
theorem run_init_failure {e : Failure} (h : (init.run s t args).failure = some e) :
    ((init.run s t args).tree = t ↔ e.isPolicyWrite = false) ∧
      (e.isPolicyWrite = true → ∃ c, answeredProject? s = some c ∧
        t.write (projectPath args) (Text.utf8 c.toYaml) = .ok (init.run s t args).tree ∧
        (t.Sound → t.Gains (init.run s t args).tree [projectPath args])) := by
  have hsets := sets_run s t args
  rw [h] at hsets
  generalize (init.run s t args).tree = t' at hsets ⊢
  cases hsets with
  | failed hwrite => simp [hwrite]
  | created hask hproject hnew hwrite hstarts =>
    cases hstarts with
    | failed hpolicy =>
      refine ⟨?_, fun _ => ⟨_, answeredProject?_eq hask hproject, hwrite, fun hs => ?_⟩⟩
      · simp [hpolicy, FileTree.ne_of_write hnew hwrite]
      · exact .of_write hs hnew hwrite

/-- Someone who answers only the question for the policy. -/
def answeringPolicy (path : String) : Surroundings :=
  ⟨[], .zero, fun _ => .ok [("policy", path)]⟩

theorem run_init_failure_sample :
    ∃ e, (init.run (answeringPolicy "no/dir.yml") (.empty ["w"]) []).failure = some e ∧
      e.isPolicyWrite = true ∧ (init.run (answeringPolicy "no/dir.yml") (.empty ["w"]) []).tree ≠
        .empty ["w"] := by
  have hfailure : ((init.run (answeringPolicy "no/dir.yml") (.empty ["w"]) []).failure.any
      Failure.isPolicyWrite) = true := by decide +kernel
  obtain ⟨e, he, hpolicy⟩ := (Option.any_eq_true _ _).mp hfailure
  refine ⟨e, he, hpolicy, fun htree => ?_⟩
  have := (run_init_failure he).1.mp htree
  rw [hpolicy] at this
  cases this

/-- A failure may leave the project file behind. -/
theorem exists_failure_with_project :
    ∃ s t args, (init.run s t args).failure.isSome = true ∧ (init.run s t args).tree ≠ t := by
  refine ⟨answeringPolicy "no/dir.yml", .empty ["w"], [], by decide +kernel, fun htree => ?_⟩
  have hsize : (init.run (answeringPolicy "no/dir.yml") (.empty ["w"]) []).tree.contents.size = 1 := by
    decide +kernel
  rw [htree] at hsize
  cases hsize

/-- Files that exist are kept, and the only new ones are the project file and the policy. Unless
    nothing has been written at all, the project file holds the project that the answers
    describe. -/
theorem run_init_gains (hs : t.Sound) :
    (∃ new, t.Gains (init.run s t args).tree new ∧
      ∀ path ∈ new, path = projectPath args ∨ policyPath? s args = some path) ∧
    (((init.run s t args).tree = t ∧ (init.run s t args).failure ≠ none) ∨
      ∃ c, answeredProject? s = some c ∧
        (init.run s t args).tree.read (projectPath args) = .ok (Text.utf8 c.toYaml)) := by
  have hsets := sets_run s t args
  generalize (init.run s t args).tree = t' at hsets ⊢
  generalize (init.run s t args).failure = failure at hsets ⊢
  cases hsets with
  | failed hwrite => exact ⟨⟨[], .refl hs, by simp⟩, .inl ⟨rfl, Option.some_ne_none _⟩⟩
  | @created answers c t₁ _ _ hask hproject hnew hwrite hstarts =>
    have hgains : t.Gains t₁ [projectPath args] := .of_write hs hnew hwrite
    have hread : t₁.read (projectPath args) = .ok (Text.utf8 c.toYaml) := hs.read_write hwrite
    have hanswered := answeredProject?_eq hask hproject
    cases hstarts with
    | none => exact ⟨⟨_, hgains, by simp⟩, .inr ⟨c, hanswered, hread⟩⟩
    | failed _ => exact ⟨⟨_, hgains, by simp⟩, .inr ⟨c, hanswered, hread⟩⟩
    -- The policy goes to a path with nothing there, which is not that of the project file any more.
    | written hfree hpolicy =>
      have hmore := FileTree.Gains.of_write hgains.sound hfree hpolicy
      refine ⟨⟨_, hgains.trans hmore, ?_⟩, .inr ⟨c, hanswered, hmore.keeps hread⟩⟩
      have hpath : policyPath? s args = some (Path.resolve (initDirectory args) c.policy) := by
        rw [policyPath?, hask, policy_of_answers hproject]
      simp [hpath]

/-- A working directory with one file. -/
def sampleFiles : FileTree where
  root := [("w", .directory [("a.yaml", .file 0)])]
  contents := #[(Text.utf8 "a\n").toByteArray]
  current := ["w"]

theorem run_init_gains_sample :
    (init.run (answeringPolicy "classguard.yaml") sampleFiles []).failure = none ∧
      ∃ c, answeredProject? (answeringPolicy "classguard.yaml") = some c ∧
        (init.run (answeringPolicy "classguard.yaml") sampleFiles []).tree.read
          (projectPath []) = .ok (Text.utf8 c.toYaml) := by
  have hfailure : (init.run (answeringPolicy "classguard.yaml") sampleFiles []).failure = none := by
    have h : (init.run (answeringPolicy "classguard.yaml") sampleFiles []).failure.isNone = true := by
      decide +kernel
    simpa using h
  refine ⟨hfailure, ?_⟩
  have hsound : sampleFiles.Sound := FileTree.sound_of_isSound (by decide +kernel)
  rcases (run_init_gains hsound).2 with ⟨-, hfailed⟩ | hread
  · exact absurd hfailure hfailed
  · exact hread

end Command

end ClassAudit
