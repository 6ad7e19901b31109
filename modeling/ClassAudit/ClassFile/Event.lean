import ClassAudit.ClassFile.Basic

/-! # Events of a class

    A class file as an ordered sequence of events: the class, its fields, its methods with their
    instructions and lines, and the end of the class. `ClassFile.events` is the whole sequence;
    `ClassFile.visit` hands the events one by one to a visitor, who may stop at any of them.
-/

namespace ClassAudit

inductive Event where
  | classDeclared (version access : Nat) (name signature superName : String)
      (interfaces : List String)
  | sourceFileDeclared (file : String)
  | fieldDeclared (access : Nat) (name descriptor signature : String)
  | methodDeclared (access : Nat) (name descriptor signature : String)
      (exceptions : List String)
  | annotated (a : AnnotationInfo)
  | catchBlock (c : CatchBlock)
  | instruction (i : Instruction)
  | lineNumber (line : Nat)
  | localVariable (v : LocalVariable)
  | methodEnd
  | classEnd

/-! ### The sequence of events -/

namespace Code

/-- The line table in the order of offsets; rows of one offset stay in file order. -/
def sortedLines (c : Code) : List LineEntry :=
  c.lines.mergeSort fun a b => a.pc ≤ b.pc

/-- Instructions with line markers between them: a marker comes before the first instruction at
    or after its offset, and the markers that are left come last. -/
def interleave : List Instruction → List LineEntry → List Event
  | [], lines => lines.map fun l => .lineNumber l.line
  | i :: rest, lines =>
    (lines.takeWhile (·.pc ≤ i.offset)).map (fun l => .lineNumber l.line) ++
      .instruction i :: interleave rest (lines.dropWhile (·.pc ≤ i.offset))

def events (c : Code) : List Event :=
  c.catches.map .catchBlock ++ interleave c.instructions c.sortedLines ++
    c.locals.map .localVariable

end Code

def Field.declared (f : Field) : Event :=
  .fieldDeclared f.access f.name f.descriptor f.signature

def Field.events (f : Field) : List Event :=
  f.declared :: f.annotations.map .annotated

def Method.declared (m : Method) : Event :=
  .methodDeclared m.access m.name m.descriptor m.signature m.exceptions

def Method.events (m : Method) : List Event :=
  m.declared :: m.annotations.map .annotated ++
    (match m.code with
      | none => []
      | some c => c.events) ++
    [.methodEnd]

namespace ClassFile

def declared (c : ClassFile) : Event :=
  .classDeclared c.majorVersion c.access c.name c.signature c.superName c.interfaces

def events (c : ClassFile) : List Event :=
  c.declared ::
    (if c.sourceFile = "" then [] else [.sourceFileDeclared c.sourceFile]) ++
    c.annotations.map .annotated ++
    c.fields.flatMap Field.events ++
    c.methods.flatMap Method.events ++
    [.classEnd]

end ClassFile

/-! ### Visiting with the right to stop -/

/-- A part of a walk: from the visitor's state to its next state, and whether to go on. -/
abbrev Walk (σ : Type) := σ → σ × Bool

namespace Walk

def done {σ : Type} : Walk σ := fun s => (s, true)

/-- Walk on with `next` unless the visitor has stopped. -/
def andThen {σ : Type} (first next : Walk σ) : Walk σ := fun s =>
  match first s with
  | (s, true) => next s
  | (s, false) => (s, false)

def each {σ α : Type} (part : α → Walk σ) : List α → Walk σ
  | [] => done
  | a :: rest => (part a).andThen (each part rest)

end Walk

section Visit

variable {σ : Type} (visitor : Event → Walk σ)

/-- Visit line markers and instructions in the order of `Code.interleave`. -/
def Code.visitLines : List Instruction → List LineEntry → Walk σ
  | [], lines => Walk.each (fun l => visitor (.lineNumber l.line)) lines
  | i :: rest, lines =>
    (Walk.each (fun l : LineEntry => visitor (.lineNumber l.line))
      (lines.takeWhile (·.pc ≤ i.offset))).andThen
        ((visitor (.instruction i)).andThen
          (visitLines rest (lines.dropWhile (·.pc ≤ i.offset))))

def Code.visit (c : Code) : Walk σ :=
  (Walk.each (fun b => visitor (.catchBlock b)) c.catches).andThen
    ((visitLines visitor c.instructions c.sortedLines).andThen
      (Walk.each (fun v => visitor (.localVariable v)) c.locals))

def Field.visit (f : Field) : Walk σ :=
  (visitor f.declared).andThen (Walk.each (fun a => visitor (.annotated a)) f.annotations)

def Method.visit (m : Method) : Walk σ :=
  (visitor m.declared).andThen
    ((Walk.each (fun a => visitor (.annotated a)) m.annotations).andThen
      ((match m.code with
        | none => Walk.done
        | some c => c.visit visitor).andThen
          (visitor .methodEnd)))

/-- Visit the events of a class in order, until the visitor stops. -/
def ClassFile.visit (c : ClassFile) : Walk σ :=
  (visitor c.declared).andThen
    ((if c.sourceFile = "" then Walk.done
      else visitor (.sourceFileDeclared c.sourceFile)).andThen
      ((Walk.each (fun a => visitor (.annotated a)) c.annotations).andThen
        ((Walk.each (Field.visit visitor) c.fields).andThen
          ((Walk.each (Method.visit visitor) c.methods).andThen
            (visitor .classEnd)))))

end Visit

/-- The first `limit` events of a class, or all of them when `limit` is 0. The walk stops with
    the last event that is wanted. -/
def ClassFile.firstEvents (c : ClassFile) (limit : Nat) : List Event :=
  (c.visit (fun e seen => (e :: seen, limit == 0 || seen.length + 1 < limit)) []).1.reverse

end ClassAudit
