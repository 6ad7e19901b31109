import ClassAudit.Call.Site
import ClassAudit.Proofs.ClassFile.Event

/-! # Call sites, exactly

    The search for call sites walks through the events of a class with a state. Here is what it
    finds, without events and without a state: `Sites` says which methods give a site, and what the
    site of a method is; `Readable` says when the search succeeds.

    The proof follows the walk: what one event of a method body does to the state, what a whole
    body does, what a method does between its declaration and its end, and what all methods do in a
    row.
-/

namespace ClassAudit

variable {T : TargetSet} {s : Search} {i : Instruction} {es : List Event} {m : Method}

/-! ### Calls -/

/-- The instructions of a method; there are none without code. -/
def Method.instructions (m : Method) : List Instruction :=
  (m.code.map Code.instructions).getD []

/-- The line table of a method; it is empty without code. -/
def Method.lines (m : Method) : List LineEntry :=
  (m.code.map Code.lines).getD []

/-- Whether an instruction calls a method directly. -/
def Instruction.IsCall (i : Instruction) : Prop :=
  i.opcode.mnemonic ∈ ["invokevirtual", "invokespecial", "invokestatic", "invokeinterface"]

def Descriptor.IsMethod (descriptor : String) : Prop :=
  ∃ type, Descriptor.parseMethod descriptor = .ok type

/-- The four opcodes of calls stand side by side. -/
theorem Instruction.isCall_iff (i : Instruction) : i.IsCall ↔ i.opcode.isInvoke = true := by
  -- There are no other opcodes, so that all of them can be tried.
  have hcodes : ∀ n < 256, Opcode.mnemonic ⟨.ofNat n⟩ ∈
      ["invokevirtual", "invokespecial", "invokestatic", "invokeinterface"] ↔
        Opcode.isInvoke ⟨.ofNat n⟩ = true := by
    decide +kernel
  have h := hcodes i.opcode.code.toNat i.opcode.code.toNat_lt
  rwa [UInt8.ofNat_toNat] at h

theorem CallTarget.exists_ofMember_iff (owner name descriptor : String) :
    (∃ t, CallTarget.ofMember owner name descriptor = .ok t) ↔
      Descriptor.IsMethod descriptor := by
  unfold CallTarget.ofMember Descriptor.IsMethod
  cases Descriptor.parseMethod descriptor with
  | error e => simp [bind, Except.bind]
  | ok type => simp [bind, Except.bind, pure, Except.pure]

namespace CallSite

/-! ### What is found -/

def Calls (T : TargetSet) (i : Instruction) (t : CallTarget) : Prop :=
  i.IsCall ∧ CallTarget.ofMember i.operand.owner i.operand.name i.operand.descriptor = .ok t ∧
    t ∈ T.targets

/-- The target is that of the last instruction that calls one. -/
def LastCall (T : TargetSet) (instructions : List Instruction) (t : CallTarget) : Prop :=
  ∃ before i after, instructions = before ++ i :: after ∧ Calls T i t ∧
    ∀ j ∈ after, ∀ u, ¬ Calls T j u

theorem LastCall.exists_calls {instructions : List Instruction} {t : CallTarget}
    (h : LastCall T instructions t) : ∃ i ∈ instructions, ∃ t, Calls T i t := by
  obtain ⟨before, i, after, rfl, hcalls, -⟩ := h
  exact ⟨i, by simp, t, hcalls⟩

/-- The site of a calling method. -/
structure IsSite (T : TargetSet) (c : ClassFile) (m : Method) (s : CallSite) : Prop where
  callee : LastCall T m.instructions s.callee
  caller : CallTarget.ofMember c.name m.name m.descriptor = .ok s.caller
  sourceFile : s.sourceFile = c.sourceFile
  line : Code.LastLine m.lines s.line

/-- The sites of methods in order: one for each method that calls a target. -/
inductive Sites (T : TargetSet) (c : ClassFile) : List Method → List CallSite → Prop where
  | nil : Sites T c [] []
  | skip {m : Method} {methods : List Method} {sites : List CallSite} :
      (∀ i ∈ m.instructions, ∀ t, ¬ Calls T i t) → Sites T c methods sites →
      Sites T c (m :: methods) sites
  | site {m : Method} {methods : List Method} {s : CallSite} {sites : List CallSite} :
      IsSite T c m s → Sites T c methods sites → Sites T c (m :: methods) (s :: sites)

/-- The calls of a method can be read, and so can its own descriptor if it calls a target. -/
def Readable (T : TargetSet) (m : Method) : Prop :=
  (∀ i ∈ m.instructions, i.IsCall → Descriptor.IsMethod i.operand.descriptor) ∧
    ((∃ i ∈ m.instructions, ∃ t, Calls T i t) → Descriptor.IsMethod m.descriptor)

/-! ### One event of a body -/

/-- What the search remembers after instructions, if it remembered `start` before them. -/
def Remembers (T : TargetSet) (instructions : List Instruction) (start found : Option CallTarget) :
    Prop :=
  (found = start ∧ ∀ i ∈ instructions, ∀ t, ¬ Calls T i t) ∨
    ∃ t, found = some t ∧ LastCall T instructions t

theorem Remembers.append {is js : List Instruction} {a b c : Option CallTarget}
    (h : Remembers T is a b) (h' : Remembers T js b c) : Remembers T (is ++ js) a c := by
  -- A call among the later instructions is the last one; otherwise it is among the earlier ones.
  rcases h' with ⟨rfl, hnone⟩ | ⟨t, rfl, before, j, after, rfl, hcalls, hafter⟩
  · rcases h with ⟨rfl, hnone'⟩ | ⟨t, rfl, before, i, after, rfl, hcalls, hafter⟩
    · refine .inl ⟨rfl, fun i hi => ?_⟩
      rcases List.mem_append.mp hi with hmem | hmem
      · exact hnone' i hmem
      · exact hnone i hmem
    · refine .inr ⟨t, rfl, before, i, after ++ js, by simp, hcalls, fun j hj => ?_⟩
      rcases List.mem_append.mp hj with hmem | hmem
      · exact hafter j hmem
      · exact hnone j hmem
  · exact .inr ⟨t, rfl, is ++ before, j, after, by simp, hcalls, hafter⟩

theorem Search.target_eq_ok {owner name descriptor : String} {t : CallTarget}
    (h : CallTarget.ofMember owner name descriptor = .ok t) :
    s.target owner name descriptor = .ok t := by
  unfold Search.target
  rw [h]
  rfl

theorem Search.target_eq_error (s : Search) (owner name : String) {descriptor : String}
    (h : ¬ Descriptor.IsMethod descriptor) :
    ∃ e, s.target owner name descriptor = .error e := by
  rw [← CallTarget.exists_ofMember_iff owner name] at h
  unfold Search.target
  cases hmember : CallTarget.ofMember owner name descriptor with
  | ok t => exact absurd ⟨t, hmember⟩ h
  | error e => exact ⟨_, rfl⟩

/-- A call that can be read is remembered if it is that of a target. -/
theorem step_instruction (s : Search) (h : i.IsCall → Descriptor.IsMethod i.operand.descriptor) :
    ∃ found, Search.step T s (.instruction i) = .ok { s with found } ∧
      Remembers T [i] s.found found := by
  by_cases hcall : i.IsCall
  · obtain ⟨t, ht⟩ :=
      (CallTarget.exists_ofMember_iff i.operand.owner i.operand.name _).mpr (h hcall)
    unfold Search.step
    simp only [if_pos ((Instruction.isCall_iff i).mp hcall), Search.target_eq_ok ht]
    -- The called method can be named; what counts is whether it is looked for.
    by_cases hmem : t ∈ T.targets
    · refine ⟨some t, ?_, .inr ⟨t, rfl, [], i, [], rfl, ⟨hcall, ht, hmem⟩, by simp⟩⟩
      have hcontains : T.contains t = true := List.contains_iff_mem.mpr hmem
      simp only [bind, Except.bind, hcontains, if_true]
      rfl
    · refine ⟨s.found, ?_, .inl ⟨rfl, ?_⟩⟩
      · have hcontains : T.contains t = false := by
          unfold TargetSet.contains
          simpa using hmem
        simp only [bind, Except.bind, hcontains]
        rfl
      · simp only [List.mem_singleton, forall_eq]
        rintro u ⟨-, hu, hmem'⟩
        rw [ht] at hu
        exact hmem (Except.ok.inj hu ▸ hmem')
  · refine ⟨s.found, ?_, .inl ⟨rfl, ?_⟩⟩
    · unfold Search.step
      simp only [if_neg fun hinvoke => hcall ((Instruction.isCall_iff i).mpr hinvoke)]
      rfl
    · simp only [List.mem_singleton, forall_eq]
      exact fun u hcalls => hcall hcalls.1

/-- The events between the declaration of a method and its end. -/
def InBody : Event → Prop
  | .annotated _ => True
  | .catchBlock _ => True
  | .instruction _ => True
  | .lineNumber _ => True
  | .localVariable _ => True
  | _ => False

/-- An event of a body changes only what is remembered, and the line. -/
theorem step_body (s : Search) {e : Event} (hbody : InBody e)
    (h : ∀ i ∈ e.instruction?, i.IsCall → Descriptor.IsMethod i.operand.descriptor) :
    ∃ found, Search.step T s e = .ok { s with found, line := e.line?.getD s.line } ∧
      Remembers T e.instruction?.toList s.found found := by
  have hnone : Remembers T [] s.found s.found := .inl ⟨rfl, by simp⟩
  cases e with
  | annotated a => exact ⟨s.found, rfl, hnone⟩
  | catchBlock b => exact ⟨s.found, rfl, hnone⟩
  | lineNumber line => exact ⟨s.found, rfl, hnone⟩
  | localVariable v => exact ⟨s.found, rfl, hnone⟩
  | instruction i => exact step_instruction s (h i rfl)
  | _ => exact hbody.elim

theorem step_body_error (s : Search) (hcall : i.IsCall)
    (h : ¬ Descriptor.IsMethod i.operand.descriptor) :
    ∃ e, Search.step T s (.instruction i) = .error e := by
  obtain ⟨e, he⟩ := s.target_eq_error i.operand.owner i.operand.name h
  refine ⟨e, ?_⟩
  unfold Search.step
  simp only [if_pos ((Instruction.isCall_iff i).mp hcall), he]
  rfl

/-! ### A whole body -/

theorem run_body (hbody : ∀ e ∈ es, InBody e) (s : Search)
    (h : ∀ i ∈ es.filterMap Event.instruction?,
      i.IsCall → Descriptor.IsMethod i.operand.descriptor) :
    ∃ found, es.foldlM (Search.step T) s =
        .ok { s with found, line := (es.filterMap Event.line?).getLastD s.line } ∧
      Remembers T (es.filterMap Event.instruction?) s.found found := by
  induction es generalizing s with
  | nil => exact ⟨s.found, rfl, .inl ⟨rfl, by simp⟩⟩
  | cons e es ih =>
    rw [filterMap_cons_toList] at h
    rw [List.forall_mem_cons] at hbody
    -- The others are met with what is remembered behind the first event.
    obtain ⟨found, hstep, hfound⟩ := step_body (T := T) s hbody.1 fun i hi =>
      h i (List.mem_append_left _ (Option.mem_toList.mpr hi))
    obtain ⟨found', hrun, hfound'⟩ := ih hbody.2
      { s with found, line := e.line?.getD s.line } fun i hi => h i (List.mem_append_right _ hi)
    refine ⟨found', ?_, ?_⟩
    · rw [List.foldlM_cons, hstep]
      show es.foldlM (Search.step T) _ = _
      rw [hrun, filterMap_cons_toList]
      -- The line of the first event counts only if no later event has one.
      cases e.line? with
      | none => rfl
      | some line =>
        rw [Option.toList_some, List.singleton_append, List.getLastD_cons]
        rfl
    · rw [filterMap_cons_toList]
      exact hfound.append hfound'

theorem run_error (s : Search) (hi : .instruction i ∈ es) (hcall : i.IsCall)
    (h : ¬ Descriptor.IsMethod i.operand.descriptor) :
    ∃ e, es.foldlM (Search.step T) s = .error e := by
  induction es generalizing s with
  | nil => simp at hi
  | cons e es ih =>
    rw [List.foldlM_cons]
    cases hstep : Search.step T s e with
    | error err => exact ⟨err, rfl⟩
    | ok s' =>
      rcases List.mem_cons.mp hi with rfl | hmem
      · obtain ⟨err, herr⟩ := step_body_error s hcall h
        rw [herr] at hstep
        nomatch hstep
      · exact ih s' hmem

/-! ### A method -/

def body (m : Method) : List Event :=
  m.annotations.map .annotated ++
    (match m.code with
      | none => []
      | some c => c.events)

theorem events_eq (m : Method) : m.events = m.declared :: (body m ++ [.methodEnd]) :=
  rfl

theorem inBody_interleave (instructions : List Instruction) (lines : List LineEntry) :
    ∀ e ∈ Code.interleave instructions lines, InBody e := by
  rw [Code.interleave_eq_map, List.forall_mem_map]
  rintro (i | l) - <;> trivial

theorem inBody_body (m : Method) : ∀ e ∈ body m, InBody e := by
  unfold body
  rw [List.forall_mem_append, List.forall_mem_map]
  refine ⟨fun _ _ => trivial, ?_⟩
  cases m.code with
  | none => simp
  | some c =>
    show ∀ e ∈ c.catches.map _ ++ _ ++ c.locals.map _, InBody e
    rw [List.forall_mem_append, List.forall_mem_append, List.forall_mem_map, List.forall_mem_map]
    exact ⟨⟨fun _ _ => trivial, inBody_interleave _ _⟩, fun _ _ => trivial⟩

theorem filterMap_instruction?_body (m : Method) :
    (body m).filterMap Event.instruction? = m.instructions := by
  unfold body Method.instructions
  rw [List.filterMap_append, filterMap_map_eq_nil fun _ => rfl]
  cases m.code with
  | none => rfl
  | some c => exact c.filterMap_instruction?_events

theorem lastLine_body (m : Method) :
    Code.LastLine m.lines (((body m).filterMap Event.line?).getLastD 0) := by
  unfold body Method.lines
  rw [List.filterMap_append, filterMap_map_eq_nil fun _ => rfl]
  cases m.code with
  | none => exact .inl ⟨rfl, rfl⟩
  | some c => exact c.lastLine_events

theorem instruction_mem_events (hi : i ∈ m.instructions) : .instruction i ∈ m.events := by
  rw [← filterMap_instruction?_body] at hi
  obtain ⟨e, he, hview⟩ := List.mem_filterMap.mp hi
  cases e with
  | instruction j =>
    obtain rfl := Option.some.inj hview
    rw [events_eq]
    exact List.mem_cons_of_mem _ (List.mem_append_left _ he)
  | _ => nomatch hview

/-- What a search knows of the class that it is in. -/
structure InClass (c : ClassFile) (s : Search) : Prop where
  className : s.className = c.name
  sourceFile : s.sourceFile = c.sourceFile

def declared (s : Search) (m : Method) : Search :=
  { s with methodName := m.name, methodDescriptor := m.descriptor, found := none, line := 0 }

/-- The search at the end of a method, if it has found `found`. -/
def atEnd (s : Search) (m : Method) (found : Option CallTarget) : Search :=
  { declared s m with found, line := ((body m).filterMap Event.line?).getLastD 0 }

/-- A method whose calls can be read leads to its end, where its last call of a target is known. -/
theorem run_to_end (s : Search)
    (h : ∀ i ∈ m.instructions, i.IsCall → Descriptor.IsMethod i.operand.descriptor) :
    ∃ found, m.events.foldlM (Search.step T) s =
        Search.step T (atEnd s m found) .methodEnd ∧
      Remembers T m.instructions none found := by
  have hinstructions := filterMap_instruction?_body m
  obtain ⟨found, hrun, hfound⟩ := run_body (T := T) (inBody_body m) (declared s m)
    fun i hi => h i (hinstructions ▸ hi)
  rw [hinstructions] at hfound
  refine ⟨found, ?_, hfound⟩
  rw [events_eq, List.foldlM_cons]
  show List.foldlM (Search.step T) (declared s m) (body m ++ [.methodEnd]) = _
  rw [List.foldlM_append, hrun]
  show List.foldlM (Search.step T) (atEnd s m found) [.methodEnd] = _
  rw [List.foldlM_cons]
  exact bind_pure _

/-- A method that can be read adds its site, if it has one. Nothing of the methods before it
    counts. -/
theorem run_method {c : ClassFile} (hs : InClass c s) (h : Readable T m) :
    ∃ s', m.events.foldlM (Search.step T) s = .ok s' ∧ InClass c s' ∧
      ((s'.sites = s.sites ∧ ∀ i ∈ m.instructions, ∀ t, ¬ Calls T i t) ∨
        ∃ site, IsSite T c m site ∧ s'.sites = site :: s.sites) := by
  obtain ⟨hcalls, hcaller⟩ := h
  obtain ⟨found, hrun, hfound⟩ := run_to_end s hcalls
  rw [hrun]
  rcases hfound with ⟨rfl, hnone⟩ | ⟨t, rfl, hlast⟩
  · exact ⟨_, rfl, ⟨hs.className, hs.sourceFile⟩, .inl ⟨rfl, hnone⟩⟩
  · obtain ⟨caller, hmember⟩ := (CallTarget.exists_ofMember_iff c.name m.name m.descriptor).mpr
      (hcaller hlast.exists_calls)
    -- The end of the method asks for the caller and closes the site.
    let site : CallSite := ⟨t, caller, s.sourceFile, (atEnd s m (some t)).line⟩
    refine ⟨{ atEnd s m (some t) with sites := site :: s.sites }, ?_,
      ⟨hs.className, hs.sourceFile⟩, .inr ⟨site, ?_, rfl⟩⟩
    · have hmember' : CallTarget.ofMember s.className m.name m.descriptor = .ok caller := by
        rw [hs.className, hmember]
      show (Search.target _ s.className m.name m.descriptor >>= _) = _
      rw [Search.target_eq_ok hmember']
      rfl
    · exact ⟨hlast, hmember, hs.sourceFile, lastLine_body m⟩

/-- A method that cannot be read stops the search: at a call, or at its end. -/
theorem run_method_error (s : Search) (h : ¬ Readable T m) :
    ∃ e, m.events.foldlM (Search.step T) s = .error e := by
  by_cases hcalls : ∀ i ∈ m.instructions, i.IsCall → Descriptor.IsMethod i.operand.descriptor
  · have hcaller : (∃ i ∈ m.instructions, ∃ t, Calls T i t) ∧
        ¬ Descriptor.IsMethod m.descriptor :=
      Classical.not_imp.mp fun hcaller => h ⟨hcalls, hcaller⟩
    obtain ⟨⟨i, hi, t, hcall⟩, hbad⟩ := hcaller
    -- All calls can be read, so that the search comes to the end and fails there.
    obtain ⟨found, hrun, hfound⟩ := run_to_end s hcalls
    rw [hrun]
    rcases hfound with ⟨rfl, hnone⟩ | ⟨u, rfl, -⟩
    · exact absurd hcall (hnone i hi t)
    · obtain ⟨e, he⟩ := (atEnd s m (some u)).target_eq_error s.className m.name hbad
      refine ⟨e, ?_⟩
      show (Search.target _ s.className m.name m.descriptor >>= _) = _
      rw [he]
      rfl
  · simp only [Classical.not_forall] at hcalls
    obtain ⟨i, hi, hcall, hbad⟩ := hcalls
    exact run_error s (instruction_mem_events hi) hcall hbad

/-! ### A class -/

theorem run_methods {c : ClassFile} {methods : List Method} (hs : InClass c s)
    (h : ∀ m ∈ methods, Readable T m) :
    ∃ s' sites, (methods.flatMap Method.events).foldlM (Search.step T) s = .ok s' ∧
      Sites T c methods sites ∧ s'.sites = sites.reverse ++ s.sites := by
  induction methods generalizing s with
  | nil => exact ⟨s, [], rfl, .nil, rfl⟩
  | cons m methods ih =>
    rw [List.forall_mem_cons] at h
    obtain ⟨s₁, hrun, hs₁, hadded⟩ := run_method hs h.1
    obtain ⟨s₂, sites, hrest, hsites, hlist⟩ := ih hs₁ h.2
    rw [List.flatMap_cons, List.foldlM_append, hrun]
    -- Sites are put in front of those found before, and reversed in the end.
    rcases hadded with ⟨hsame, hnone⟩ | ⟨site, hsite, hcons⟩
    · exact ⟨s₂, sites, hrest, .skip hnone hsites, by rw [hlist, hsame]⟩
    · refine ⟨s₂, site :: sites, hrest, .site hsite hsites, ?_⟩
      rw [hlist, hcons, List.reverse_cons, List.append_assoc]
      rfl

/-- A method that cannot be read stops the search, if no method before it does. -/
theorem run_methods_error {methods : List Method} (hm : m ∈ methods) (h : ¬ Readable T m)
    (s : Search) : ∃ e, (methods.flatMap Method.events).foldlM (Search.step T) s = .error e := by
  induction methods generalizing s with
  | nil => simp at hm
  | cons first methods ih =>
    rw [List.flatMap_cons, List.foldlM_append]
    rcases List.mem_cons.mp hm with rfl | hmem
    · obtain ⟨e, he⟩ := run_method_error s h
      rw [he]
      exact ⟨e, rfl⟩
    · cases hfirst : first.events.foldlM (Search.step T) s with
      | error e => exact ⟨e, rfl⟩
      | ok s' => exact ih hmem s'

theorem run_quiet (h : ∀ e ∈ es, ∀ s : Search, Search.step T s e = .ok s) (s : Search) :
    es.foldlM (Search.step T) s = .ok s := by
  induction es with
  | nil => rfl
  | cons e es ih =>
    rw [List.forall_mem_cons] at h
    rw [List.foldlM_cons, h.1 s]
    exact ih h.2

/-- The events of a class in front of its methods. -/
def header (c : ClassFile) : List Event :=
  c.declared :: (if c.sourceFile = "" then [] else [.sourceFileDeclared c.sourceFile]) ++
    (c.annotations.map .annotated ++ c.fields.flatMap Field.events)

theorem run_header (T : TargetSet) (c : ClassFile) :
    (header c).foldlM (Search.step T) Search.start =
      .ok { Search.start with className := c.name, sourceFile := c.sourceFile } := by
  have hquiet : ∀ e ∈ c.annotations.map Event.annotated ++ c.fields.flatMap Field.events,
      ∀ s : Search, Search.step T s e = .ok s := by
    rw [List.forall_mem_append, List.forall_mem_map, List.forall_mem_flatMap]
    refine ⟨fun _ _ _ => rfl, fun f _ => ?_⟩
    unfold Field.events
    rw [List.forall_mem_cons, List.forall_mem_map]
    exact ⟨fun _ => rfl, fun _ _ _ => rfl⟩
  unfold header
  rw [List.foldlM_append]
  -- A class without a source file has no event for it, and the search starts with none.
  by_cases hsource : c.sourceFile = ""
  · rw [if_pos hsource, hsource]
    exact run_quiet hquiet _
  · rw [if_neg hsource]
    exact run_quiet hquiet _

theorem find_eq (T : TargetSet) (c : ClassFile) :
    find T c = (do
      let s ← (c.methods.flatMap Method.events).foldlM (Search.step T)
        { Search.start with className := c.name, sourceFile := c.sourceFile }
      return s.sites.reverse) := by
  have hevents : c.events = header c ++ (c.methods.flatMap Method.events ++ [.classEnd]) := by
    unfold ClassFile.events header
    simp only [List.append_assoc]
  unfold find
  rw [hevents, List.foldlM_append, run_header]
  show (List.foldlM _ _ _ >>= _) = _
  rw [List.foldlM_append, bind_assoc]
  rfl

/-- **Call sites.** If all methods can be read, the search finds one site for each method that calls
    a target, in the order of the methods: with its last call of a target, the method itself, the
    source file and the line of the last row of its line table. Otherwise it finds an error. -/
theorem find_exact (T : TargetSet) (c : ClassFile) :
    ((∀ m ∈ c.methods, Readable T m) → ∃ sites, find T c = .ok sites ∧ Sites T c c.methods sites) ∧
      (¬ (∀ m ∈ c.methods, Readable T m) → ∃ e, find T c = .error e) := by
  rw [find_eq]
  constructor
  · intro h
    have hs : InClass c { Search.start with className := c.name, sourceFile := c.sourceFile } :=
      ⟨rfl, rfl⟩
    obtain ⟨s, sites, hrun, hsites, hlist⟩ := run_methods hs h
    refine ⟨sites, ?_, hsites⟩
    rw [hrun]
    show Except.ok s.sites.reverse = _
    rw [hlist, show Search.start.sites = [] from rfl, List.append_nil, List.reverse_reverse]
  · intro h
    simp only [Classical.not_forall] at h
    obtain ⟨m, hm, hbad⟩ := h
    obtain ⟨e, he⟩ := run_methods_error hm hbad
      { Search.start with className := c.name, sourceFile := c.sourceFile }
    exact ⟨e, by rw [he]; rfl⟩

end CallSite

end ClassAudit
