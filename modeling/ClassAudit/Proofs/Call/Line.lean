import Mathlib.Data.List.Forall2
import ClassAudit.Proofs.Call.Site

/-! # The line of a call site

    A call site carries one line, and the method may have several. At a call, the line in effect is
    that of the last row of the line table at or in front of the call (`Code.LineAt`). The search
    forgets where it met the call and keeps the line that it meets last, so that a site carries the
    line of the call only if no row of the table lies behind the call.
-/

namespace ClassAudit

namespace Code

/-- The line in effect at an offset: that of the row with the greatest offset not above it, of the
    last one if there are several, or 0 if there is none. -/
def LineAt (lines : List LineEntry) (pc n : Nat) : Prop :=
  LastLine (lines.filter (·.pc ≤ pc)) n

theorem Latest.filter {lines : List LineEntry} {l : LineEntry} {p : LineEntry → Bool}
    (h : Latest lines l) (hl : p l = true) : Latest (lines.filter p) l := by
  obtain ⟨before, after, rfl, hbefore, hafter⟩ := h
  refine ⟨before.filter p, after.filter p, ?_, fun x hx => ?_, fun x hx => ?_⟩
  · rw [List.filter_append, List.filter_cons_of_pos hl]
  · exact hbefore x (List.mem_of_mem_filter hx)
  · exact hafter x (List.mem_of_mem_filter hx)

theorem Latest.pc_le {lines : List LineEntry} {l x : LineEntry} (h : Latest lines l)
    (hx : x ∈ lines) : x.pc ≤ l.pc := by
  obtain ⟨before, after, rfl, hbefore, hafter⟩ := h
  rcases List.mem_append.mp hx with hmem | hmem
  · exact hbefore x hmem
  · rcases List.mem_cons.mp hmem with rfl | hmem
    · exact Nat.le_refl _
    · exact Nat.le_of_lt (hafter x hmem)

/-- Without rows above an offset, the last line of all is in effect there. -/
theorem LastLine.lineAt {lines : List LineEntry} {n pc : Nat} (h : LastLine lines n)
    (hpc : ∀ l ∈ lines, l.pc ≤ pc) : LineAt lines pc n := by
  have hall : lines.filter (·.pc ≤ pc) = lines :=
    List.filter_eq_self.mpr fun l hl => decide_eq_true (hpc l hl)
  unfold LineAt
  rwa [hall]

/-- With rows above an offset, the last line of all is the last of theirs. -/
theorem LastLine.above {lines : List LineEntry} {n pc : Nat} (h : LastLine lines n)
    (hpc : ∃ l ∈ lines, pc < l.pc) : LastLine (lines.filter (pc < ·.pc)) n := by
  obtain ⟨x, hx, hlt⟩ := hpc
  rcases h with ⟨rfl, -⟩ | ⟨l, hlatest, rfl⟩
  · simp at hx
  · have hl : pc < l.pc := Nat.lt_of_lt_of_le hlt (hlatest.pc_le hx)
    exact .inr ⟨l, hlatest.filter (decide_eq_true hl), rfl⟩

end Code

namespace CallSite

/-! ### Last calls -/

def callsTarget (T : TargetSet) (i : Instruction) : Bool :=
  i.opcode.isInvoke &&
    match CallTarget.ofMember i.operand.owner i.operand.name i.operand.descriptor with
    | .ok t => T.contains t
    | .error _ => false

theorem callsTarget_iff (T : TargetSet) (i : Instruction) :
    callsTarget T i = true ↔ ∃ t, Calls T i t := by
  unfold callsTarget Calls
  rw [Bool.and_eq_true, ← Instruction.isCall_iff]
  cases CallTarget.ofMember i.operand.owner i.operand.name i.operand.descriptor with
  | error e => simp
  | ok t => simp [TargetSet.contains]

def lastCall? (T : TargetSet) (m : Method) : Option Instruction :=
  m.instructions.findRev? (callsTarget T)

/-- The methods of a class that call a target, each with its last call of one. -/
def lastCalls (T : TargetSet) (c : ClassFile) : List (Method × Instruction) :=
  c.methods.filterMap fun m => (lastCall? T m).map (m, ·)

theorem lastCall?_eq_none {T : TargetSet} {m : Method}
    (h : ∀ i ∈ m.instructions, ∀ t, ¬ Calls T i t) : lastCall? T m = none := by
  unfold lastCall?
  rw [List.findRev?_eq_find?_reverse, List.find?_eq_none]
  intro i hi hcalls
  obtain ⟨t, ht⟩ := (callsTarget_iff T i).mp hcalls
  exact h i (List.mem_reverse.mp hi) t ht

theorem LastCall.exists_lastCall? {T : TargetSet} {m : Method} {t : CallTarget}
    (h : LastCall T m.instructions t) : ∃ i, lastCall? T m = some i := by
  obtain ⟨i, hi, u, hcalls⟩ := h.exists_calls
  cases hlast : lastCall? T m with
  | some j => exact ⟨j, rfl⟩
  | none =>
    unfold lastCall? at hlast
    rw [List.findRev?_eq_find?_reverse, List.find?_eq_none] at hlast
    exact absurd ((callsTarget_iff T i).mpr ⟨u, hcalls⟩) (hlast i (List.mem_reverse.mpr hi))

/-- The sites of methods belong one by one to the methods that call a target. -/
theorem Sites.forall₂ {T : TargetSet} {c : ClassFile} {methods : List Method}
    {sites : List CallSite} (h : Sites T c methods sites) :
    List.Forall₂ (fun call s => IsSite T c call.1 s)
      (methods.filterMap fun m => (lastCall? T m).map (m, ·)) sites := by
  induction h with
  | nil => exact .nil
  | skip hnone _ ih =>
    rwa [List.filterMap_cons_none (by rw [lastCall?_eq_none hnone]; rfl)]
  | site hsite _ ih =>
    obtain ⟨i, hi⟩ := hsite.callee.exists_lastCall?
    rw [List.filterMap_cons_some (by rw [hi]; rfl)]
    exact .cons hsite ih

/-! ### What the sites carry -/

theorem sites_of_find {T : TargetSet} {c : ClassFile} {sites : List CallSite}
    (h : find T c = .ok sites) : Sites T c c.methods sites := by
  have hs : InClass c { Search.start with className := c.name, sourceFile := c.sourceFile } :=
    ⟨rfl, rfl⟩
  rw [find_eq] at h
  by_cases hreadable : ∀ m ∈ c.methods, Readable T m
  · obtain ⟨s, found, hrun, hsites, hlist⟩ := run_methods hs hreadable
    rw [hrun] at h
    change Except.ok s.sites.reverse = _ at h
    rw [hlist, show Search.start.sites = [] from rfl, List.append_nil, List.reverse_reverse] at h
    rwa [← Except.ok.inj h]
  · simp only [Classical.not_forall] at hreadable
    obtain ⟨m, hm, hbad⟩ := hreadable
    obtain ⟨e, he⟩ := run_methods_error hm hbad
      { Search.start with className := c.name, sourceFile := c.sourceFile }
    rw [he] at h
    nomatch h

/-- **The line of a call site.** The sites that are found belong in order to the methods that call a
    target. Each carries the line in effect at the last such call of its method if no row of the
    line table lies above it; otherwise it carries the line of the last row that does. -/
theorem find_lines {T : TargetSet} {c : ClassFile} {sites : List CallSite}
    (h : find T c = .ok sites) :
    List.Forall₂ (fun call s =>
      CallTarget.ofMember c.name call.1.name call.1.descriptor = .ok s.caller ∧
      ((∀ l ∈ call.1.lines, l.pc ≤ call.2.offset) →
        Code.LineAt call.1.lines call.2.offset s.line) ∧
      ((∃ l ∈ call.1.lines, call.2.offset < l.pc) →
        Code.LastLine (call.1.lines.filter (call.2.offset < ·.pc)) s.line))
      (lastCalls T c) sites :=
  (sites_of_find h).forall₂.imp fun _ _ hsite =>
    ⟨hsite.caller, hsite.line.lineAt, hsite.line.above⟩

/-! ### A line behind the call -/

/-- A class with a method that calls `B.f` and returns. Its line table has a row for the return and
    none for the call. -/
def lateLine : List UInt8 :=
  [0xca, 0xfe, 0xba, 0xbe, 0, 0, 0, 52, 0, 12, 1, 0, 1, 65, 7, 0, 1, 1, 0, 1, 109, 1, 0, 3, 40,
    41, 86, 1, 0, 1, 66, 7, 0, 5, 1, 0, 1, 102, 12, 0, 7, 0, 4, 10, 0, 6, 0, 8, 1, 0, 15, 76, 105,
    110, 101, 78, 117, 109, 98, 101, 114, 84, 97, 98, 108, 101, 1, 0, 4, 67, 111, 100, 101, 0, 0,
    0, 2, 0, 0, 0, 0, 0, 0, 0, 1, 0, 0, 0, 3, 0, 4, 0, 1, 0, 11, 0, 0, 0, 28, 0, 8, 0, 8, 0, 0, 0,
    4, 184, 0, 9, 177, 0, 0, 0, 1, 0, 10, 0, 0, 0, 6, 0, 1, 0, 3, 0, 11, 0, 0]

/-- The method that `lateLine` calls. -/
def lateTarget : TargetSet :=
  ⟨[⟨"B", "void f()"⟩]⟩

/-- The call stands at 0 and the row at 3. -/
theorem find_lateLine :
    ∃ c sites, ClassFile.parse lateLine = .ok c ∧ find lateTarget c = .ok sites ∧
      sites.map line = [11] ∧
      (lastCalls lateTarget c).map (fun call => (call.1.lines.map LineEntry.pc, call.2.offset)) =
        [([3], 0)] := by
  have hfind : (ClassFile.parse lateLine).toOption.map (fun c =>
      ((find lateTarget c).toOption.map (·.map line), (lastCalls lateTarget c).map fun call =>
        (call.1.lines.map LineEntry.pc, call.2.offset))) = some (some [11], [([3], 0)]) := by
    decide +kernel
  cases hparse : ClassFile.parse lateLine with
  | error e =>
    rw [hparse] at hfind
    nomatch hfind
  | ok c =>
    rw [hparse] at hfind
    obtain ⟨hsites, hcalls⟩ := Prod.mk.inj (Option.some.inj hfind)
    cases hrun : find lateTarget c with
    | error e =>
      rw [hrun] at hsites
      nomatch hsites
    | ok sites =>
      rw [hrun] at hsites
      exact ⟨c, sites, rfl, hrun, Option.some.inj hsites, hcalls⟩

theorem find_lines_late :
    ∃ c sites, ClassFile.parse lateLine = .ok c ∧ find lateTarget c = .ok sites ∧
      sites.map line = [11] ∧
      List.Forall₂ (fun call s =>
        (∃ l ∈ call.1.lines, call.2.offset < l.pc) →
          Code.LastLine (call.1.lines.filter (call.2.offset < ·.pc)) s.line)
        (lastCalls lateTarget c) sites := by
  obtain ⟨c, sites, hparse, hfind, hlines, -⟩ := find_lateLine
  exact ⟨c, sites, hparse, hfind, hlines, (find_lines hfind).imp fun _ _ h => h.2.2⟩

/-- A site need not carry the line in effect at the call. Here there is none, and the site has the
    line of the return. -/
theorem exists_line_behind_call :
    ∃ data c T sites, ClassFile.parse data = .ok c ∧ find T c = .ok sites ∧
      ¬ List.Forall₂ (fun call s => Code.LineAt call.1.lines call.2.offset s.line)
        (lastCalls T c) sites := by
  obtain ⟨c, sites, hparse, hfind, hlines, hcalls⟩ := find_lateLine
  refine ⟨lateLine, c, lateTarget, sites, hparse, hfind, fun hall => ?_⟩
  obtain ⟨s, rfl, hline⟩ := List.map_eq_singleton_iff.mp hlines
  obtain ⟨call, hcall, hrows⟩ := List.map_eq_singleton_iff.mp hcalls
  obtain ⟨hpcs, hoffset⟩ := Prod.mk.inj hrows
  obtain ⟨l, hl, hpc⟩ := List.map_eq_singleton_iff.mp hpcs
  rw [hcall, List.forall₂_cons] at hall
  -- No row is in effect at the call, so that the line would have to be 0.
  have hnone : call.1.lines.filter (·.pc ≤ call.2.offset) = [] := by
    simp [hl, hoffset, hpc]
  have hline' := hall.1
  unfold Code.LineAt Code.LastLine at hline'
  rw [hnone, hline] at hline'
  rcases hline' with ⟨-, h⟩ | ⟨l, ⟨before, after, h, -⟩, -⟩
  · nomatch h
  · simp at h

end CallSite

end ClassAudit
